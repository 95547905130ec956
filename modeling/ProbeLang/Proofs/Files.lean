import Mathlib.Tactic.SplitIfs
import ProbeLang.Files
import ProbeLang.Proofs.Fallible

/-!
# Paths and places

A path is told by its segments: putting one behind a directory puts its segments behind those of the
directory (`FilePath.segments_join`). In a tree, segments lead from place to place. A tree that grows
(`FileTree.Keeps`) keeps its directories, and its files but for those that are written; so a path that
has led somewhere leads there still.
-/

namespace ProbeLang

/-! ## Splitting -/

namespace FilePath

variable {sep : Char} {s t : String}

theorem splitAt_eq (sep : Char) : ∀ (word cs : List Char),
    splitAt sep word cs = (cs.splitOn sep).modifyHead (word.reverse ++ ·)
  | word, [] => by simp [splitAt, List.splitOn]
  | word, c :: cs => by
      rw [splitAt, List.splitOn, List.splitOnP_cons_eq_if_modifyHead]
      by_cases hc : c = sep
      · rw [if_pos hc, if_pos (beq_iff_eq.mpr hc), splitAt_eq sep [] cs, List.splitOn]
        cases List.splitOnP (· == sep) cs <;> simp
      · rw [if_neg hc, if_neg (by simpa using hc), splitAt_eq sep (c :: word) cs, List.splitOn]
        cases List.splitOnP (· == sep) cs <;> simp

theorem splitOnChar_eq (sep : Char) (s : String) :
    splitOnChar sep s = (s.toList.splitOn sep).map String.ofList := by
  rw [splitOnChar, splitAt_eq]
  cases s.toList.splitOn sep <;> simp

theorem splitOnChar_append (sep : Char) (s t : String) :
    splitOnChar sep (s ++ String.singleton sep ++ t) = splitOnChar sep s ++ splitOnChar sep t := by
  simp only [splitOnChar_eq, String.toList_append, String.toList_singleton, List.append_assoc,
    List.singleton_append, List.splitOn, ← List.map_append]
  rw [List.splitOnP_append_cons (p := fun c => c == sep) _ _ (beq_self_eq_true sep)]

theorem splitOnChar_of_not_mem (h : sep ∉ s.toList) : splitOnChar sep s = [s] := by
  rw [splitOnChar_eq, List.splitOn, List.splitOnP_eq_singleton]
  · simp
  · exact fun c hc => beq_eq_false_iff_ne.mpr fun heq => h (heq ▸ hc)

theorem splitOnChar_ne_nil (sep : Char) (s : String) : splitOnChar sep s ≠ [] := by
  rw [splitOnChar_eq]
  exact mt List.map_eq_nil_iff.mp (List.splitOnP_ne_nil _ _)

/-- The pieces of texts with a sign between them that none of them has. -/
theorem splitOnChar_intercalate {pieces : List String} (hne : pieces ≠ [])
    (h : ∀ s ∈ pieces, sep ∉ s.toList) :
    splitOnChar sep ((String.singleton sep).intercalate pieces) = pieces := by
  rw [splitOnChar_eq, String.toList_intercalate, String.toList_singleton,
    List.splitOn_intercalate _ (List.forall_mem_map.mpr h) (mt List.map_eq_nil_iff.mp hne),
    List.map_map]
  exact (List.map_congr_left fun s _ => String.ofList_toList).trans (List.map_id _)

/-! ## Segments -/

/-- Whether a text can name an entry of a directory. -/
structure Step (s : String) : Prop where
  named : s ≠ "" ∧ s ≠ "."
  inside : s ≠ ".."
  single : '/' ∉ s.toList

variable {dir path : String}

theorem Step.segments (h : Step s) : segments s = [s] :=
  splitOnChar_of_not_mem h.single

/-- The segments that the paths in a directory begin with. -/
def lead (dir : String) : List String :=
  if dir.isEmpty || dir.toList.getLast? == some '/' then (segments dir).dropLast else segments dir

end FilePath

/-! ## Following segments -/

namespace FileTree

variable {t t' t'' : FileTree} {key place : List String} {e : Entry} {path : String}
  {places places' : List (List String)} {segs steps : List String}

theorem follow_cons {s : String} {rest : List String} (h : t.entry? key = some .dir) :
    t.follow key (s :: rest) =
      if s = "" || s = "." then t.follow key rest
      else if s = ".." then
        if !key.isEmpty then t.follow key.dropLast rest
        else if onlyBack rest then .ok []
        else .error .notFound
      else if 255 < s.utf8ByteSize then .error .nameTooLong
      else t.follow (key ++ [s]) rest := by
  rw [follow, h]

/-- Segments are followed from directories only. -/
theorem entry?_of_follow {s : String} {rest : List String}
    (h : t.follow key (s :: rest) = .ok place) : t.entry? key = some .dir := by
  rw [follow] at h
  split at h
  · cases h
  · cases h
  · assumption

/-- A path leads to a place if it is one at all and its segments lead there. -/
theorem resolve_eq_ok_iff : t.resolve path = .ok place ↔ checked path = .ok () ∧
    (FilePath.isAbsolute path = true ∧ path.toList.all (· == '/') = true ∧ place = [] ∨
      FilePath.isAbsolute path = false ∧ t.follow [] (FilePath.segments path) = .ok place) := by
  unfold resolve
  cases checked path with
  | error fault => simp [bind, Except.bind]
  | ok r =>
      cases FilePath.isAbsolute path with
      | true =>
          cases path.toList.all (· == '/') <;> simp [bind, Except.bind, eq_comm]
      | false =>
          cases t.follow [] (FilePath.segments path) <;>
            simp [bind, Except.bind, Except.mapError]

/-! ## Trees that grow -/

/-- What is found under a key once values have been changed, each by its key. -/
theorem lookup_map_key {α β : Type} [BEq α] [LawfulBEq α] (f : α → β → β) (key : α) :
    ∀ entries : List (α × β),
      (entries.map fun p => (p.1, f p.1 p.2)).lookup key = (entries.lookup key).map (f key)
  | [] => rfl
  | (k, old) :: entries => by
      simp only [List.map_cons, List.lookup_cons]
      cases hkey : key == k with
      | true => rw [eq_of_beq hkey]; rfl
      | false => exact lookup_map_key f key entries

/-- What stands at the end of some steps once an entry has been put at the end of others. -/
theorem entry?_set (t : FileTree) (hplace : place ≠ []) (e : Entry) (key : List String) :
    FileTree.entry? (t.set place e) key = if key = place then some e else t.entry? key := by
  by_cases hroot : key = []
  · subst hroot
    rw [if_neg hplace.symm]
    rfl
  have hentry (u : FileTree) : u.entry? key = u.entries.lookup key := by
    simp [ entry?, hroot]
  rw [hentry, hentry, set]
  split
  · next hold =>
      have hmap : (fun p : List String × Entry => if p.1 = place then (p.1, e) else (p.1, p.2)) =
          fun p => (p.1, if p.1 = place then e else p.2) := by
        funext p
        split <;> rfl
      refine (congrArg (fun f => (t.entries.map f).lookup key) hmap).trans
        ((lookup_map_key (fun k old => if k = place then e else old) key t.entries).trans ?_)
      split
      · next hkey =>
          obtain ⟨old, hold⟩ := Option.isSome_iff_exists.mp hold
          rw [hkey, hold]
          rfl
      · exact Option.map_id'
  · next hnew =>
      rw [List.lookup_append, List.lookup_cons]
      cases hkey : key == place with
      | true =>
          obtain rfl := eq_of_beq hkey
          rw [Option.not_isSome_iff_eq_none.mp hnew, if_pos rfl]
          rfl
      | false =>
          rw [if_neg (beq_eq_false_iff_ne.mp hkey)]
          exact Option.or_none

/-- At the end of no steps at all stands a directory. -/
theorem ne_nil_of_not_dir (h : t.entry? place ≠ some .dir) : place ≠ [] := by
  rintro rfl
  exact h rfl

/-- Whether a tree has all that another one has, but for other files in some places. -/
def Keeps (t t' : FileTree) (places : List (List String)) : Prop :=
  ∀ key e, t.entry? key = some e → e = .dir ∨ key ∉ places → t'.entry? key = some e

namespace Keeps

theorem refl (t : FileTree) : t.Keeps t [] :=
  fun _ _ h _ => h

theorem trans (h : t.Keeps t' places) (h' : t'.Keeps t'' places') :
    t.Keeps t'' (places ++ places') := by
  intro key e he hkept
  simp only [List.mem_append, not_or] at hkept
  exact h' key e (h key e he (hkept.imp_right And.left)) (hkept.imp_right And.right)

theorem set (hplace : t.entry? place ≠ some .dir) (e : Entry) :
    t.Keeps (t.set place e) [place] := by
  intro key old hold hkept
  rw [entry?_set t (ne_nil_of_not_dir hplace), if_neg ?_, hold]
  rintro rfl
  rcases hkept with rfl | hkept
  · exact hplace hold
  · exact hkept (List.mem_singleton_self _)

/-- Where segments have led they still lead. -/
theorem follow (h : t.Keeps t' places) : ∀ {segs key : List String},
    t.follow key segs = .ok place → t'.follow key segs = .ok place
  | [], _, hplace => hplace
  | s :: segs, key, hplace => by
      have hdir := entry?_of_follow hplace
      rw [follow_cons hdir] at hplace
      rw [follow_cons (h key .dir hdir (.inl rfl))]
      split_ifs at hplace ⊢ <;> first | exact h.follow hplace | exact hplace

theorem resolve (h : t.Keeps t' places) (hplace : t.resolve path = .ok place) :
    t'.resolve path = .ok place := by
  rw [resolve_eq_ok_iff] at hplace ⊢
  exact hplace.imp_right (Or.imp_right (And.imp_right h.follow))

end Keeps

/-! ## Making directories and writing files -/

variable {content : Bytes} {above : String}

theorem read_eq_ok_iff :
    t.read path = .ok content ↔
      ∃ place, t.resolve path = .ok place ∧ t.entry? place = some (.file content) := by
  unfold read find
  cases t.resolve path with
  | error fault => simp [bind, Except.bind]
  | ok place =>
      rcases h : t.entry? place with _ | _ | _ <;> simp [bind, Except.bind, h]

/-- What is read is in a file of the tree. -/
theorem mem_entries_of_read (h : t.read path = .ok content) :
    ∃ key, (key, Entry.file content) ∈ t.entries := by
  obtain ⟨place, -, hfile⟩ := read_eq_ok_iff.mp h
  have hne : place ≠ [] := ne_nil_of_not_dir (by rw [hfile]; exact nofun)
  unfold entry? at hfile
  rw [if_neg (by simpa using hne)] at hfile
  obtain ⟨before, behind, hentries, -⟩ := List.lookup_eq_some_iff.mp hfile
  exact ⟨place, hentries ▸ by simp⟩

theorem isFile_of_read (h : t.read path = .ok content) : t.isFile path = true := by
  unfold read at h
  unfold isFile
  cases hfind : t.find path with
  | error fault =>
      rw [hfind] at h
      cases h
  | ok e =>
      rw [hfind] at h
      cases e with
      | file content => rfl
      | dir => cases h

end FileTree

end ProbeLang
