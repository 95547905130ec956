import ProbeLang.Store
import ProbeLang.Proofs.Table
import Mathlib.Data.List.Induction

/-!
# Histories of a store in memory

A store in memory and the sinks of its artifacts are used in any order: sinks are opened,
written to, closed or dropped, artifacts are taken, maps are read and the store is closed,
while other sinks of the same or of other names are still open. What each map holds at the
end is read off the history of these actions alone.

An action happens after those before it, so that a history grows at its end; every law here
is an induction from that end. `StoreRun.Tracks` is the invariant that carries it: the sinks
that are held are those that the history opened, with what has been written to them.
-/

namespace ProbeLang

/-! ## Runs -/

/-- What is done to a store in memory and to the sinks of its artifacts. Sinks are numbered
in the order in which they were opened. -/
inductive StoreAction
  | openSink (location : Location) (name : String) (sibling : Option CompilationUnit)
  | write (sink : Nat) (bytes : Bytes)
  | closeSink (sink : Nat)
  | dropSink (sink : Nat)
  | take
  | read
  | close
  | setLocation (location : Location) (dirs : List String)
  | find (location : Location) (name : String) (kind : UnitKind)
  | takeDeferred
  deriving Repr, DecidableEq

/-- A sink with whether its bytes have been committed. -/
structure HeldSink where
  sink : Sink
  committed : Bool := false
  deriving Repr, DecidableEq

/-- The sink after its bytes have been moved out of it. -/
def HeldSink.spent (h : HeldSink) : HeldSink :=
  { sink := { h.sink with buffer := [] }, committed := true }

/-- A store in memory with the sinks that have been opened on it. -/
structure StoreRun where
  files : FileTree
  store : UnitStore
  sinks : List HeldSink := []

namespace StoreRun

/-- Let go of a sink. Bytes that have been committed are not published again. -/
def letGo (r : StoreRun) (i : Nat) : StoreRun :=
  match r.sinks[i]? with
  | some ⟨sink, false⟩ =>
      { r with
        store := r.store.dropSink sink
        sinks := r.sinks.modify i HeldSink.spent }
  | _ => r

/-- Commit a sink. -/
def commit (r : StoreRun) (i : Nat) : StoreRun :=
  match r.sinks[i]? with
  | some ⟨sink, false⟩ =>
      let (_, files, store) := r.store.commit r.files sink
      { files, store, sinks := r.sinks.modify i HeldSink.spent }
  | _ => r

/-- Do one action. A sink that is closed is committed, and then let go of like any other. -/
def step (r : StoreRun) : StoreAction → StoreRun
  | .openSink location name sibling =>
      { r with sinks := r.sinks ++ [⟨r.store.openOutput location name .artifact sibling, false⟩] }
  | .write i bytes =>
      { r with sinks := r.sinks.modify i fun h => { h with sink := h.sink.write bytes } }
  | .closeSink i => (r.commit i).letGo i
  | .dropSink i => r.letGo i
  | .take => { r with store := r.store.takeArtifacts.2 }
  | .read => r
  | .close => { r with store := r.store.close }
  | .setLocation location dirs => { r with store := r.store.setLocation location dirs }
  | .find location name kind => { r with store := (r.store.input r.files location name kind).2 }
  | .takeDeferred => { r with store := r.store.takeDeferred.2 }

/-- Do actions one after another. -/
def run (r : StoreRun) (actions : List StoreAction) : StoreRun :=
  actions.foldl step r

/-- A new store in memory, with no sinks. -/
def fresh (files : FileTree) (search : Option SearchPath) : StoreRun :=
  ⟨files, .inMemory search, []⟩

theorem run_concat (r : StoreRun) (h : List StoreAction) (a : StoreAction) :
    r.run (h ++ [a]) = (r.run h).step a :=
  by rw [run, List.foldl_append]; rfl

end StoreRun

/-! ## Histories -/

/-- What is done, first to last. -/
abbrev StoreHistory := List StoreAction

/-- A sink that was opened: the name it was opened under, and the number of the map that was
current then. -/
structure Opening where
  name : String
  map : Nat
  deriving Repr, DecidableEq

/-- Bytes that are published. -/
@[ext]
structure Publication where
  map : Nat
  name : String
  bytes : Bytes
  deriving Repr, DecidableEq

namespace StoreAction

/-- The sink that an action closes or drops. -/
def ends? : StoreAction → Option Nat
  | .closeSink i | .dropSink i => some i
  | _ => none

/-- The sink that an action is done to. -/
def sink? : StoreAction → Option Nat
  | .write i _ | .closeSink i | .dropSink i => some i
  | _ => none

/-- What an action adds to the bytes of a sink. -/
def adds (i : Nat) : StoreAction → Bytes
  | .write j bytes => if j = i then bytes else []
  | _ => []

theorem sink?_of_ends? {a : StoreAction} {i : Nat} (h : a.ends? = some i) : a.sink? = some i := by
  cases a <;> simp_all [ends?, sink?]

theorem adds_eq_nil {a : StoreAction} {i : Nat} (h : a.sink? ≠ some i) : a.adds i = [] := by
  cases a <;> simp_all [adds, sink?]

end StoreAction

namespace StoreHistory

/-- How often the store was closed: the number of the map that is current after a history. -/
def closes (h : StoreHistory) : Nat :=
  h.count .close

/-- The sinks that were opened, first to last. -/
def openings : StoreHistory → List Opening :=
  go 0
where
  go (map : Nat) : StoreHistory → List Opening
    | [] => []
    | .openSink _ name _ :: h => ⟨name, map⟩ :: go map h
    | .close :: h => go (map + 1) h
    | _ :: h => go map h

/-- What was written to a sink. -/
def written (h : StoreHistory) (i : Nat) : Bytes :=
  h.flatMap (StoreAction.adds i)

/-- Whether a sink was closed or dropped. -/
def ended (h : StoreHistory) (i : Nat) : Bool :=
  h.any fun a => a.ends? == some i

/-- What an action that follows a history publishes: if it ends a sink, all that was written
to that sink, under its name, in the map that was current when it was opened. -/
def published (h : StoreHistory) (a : StoreAction) : Option Publication := do
  let i ← a.ends?
  let opening ← h.openings[i]?
  return ⟨opening.map, opening.name, h.written i⟩

/-- Whether an action that follows a history takes away or replaces what a map holds under a
name. -/
def Removes (h : StoreHistory) (a : StoreAction) (map : Nat) (name : String) : Prop :=
  (a = .take ∧ h.closes = map) ∨ ∃ bytes, h.published a = some ⟨map, name, bytes⟩

/-- The bytes that were published last under a name in a map, and not taken since. -/
def Leaves (h : StoreHistory) (map : Nat) (name : String) (bytes : Bytes) : Prop :=
  ∃ before a after, h = before ++ a :: after ∧
    published before a = some ⟨map, name, bytes⟩ ∧
    ∀ mid b rest, after = mid ++ b :: rest → ¬ Removes (before ++ a :: mid) b map name

/-- Whoever does something to a sink holds it: it has been opened, and neither closed nor
dropped since. -/
def Owned (h : StoreHistory) : Prop :=
  ∀ n, (hn : n < h.length) → ∀ i ∈ h[n].sink?,
    i < (openings (h.take n)).length ∧ ended (h.take n) i = false

instance (h : StoreHistory) : Decidable h.Owned :=
  inferInstanceAs (Decidable (∀ n, (hn : n < h.length) → ∀ i ∈ h[n].sink?, _))

variable {h : StoreHistory} {a : StoreAction} {map i : Nat} {name : String} {bytes : Bytes}

/-! ### The end of a history -/

theorem closes_concat (h : StoreHistory) (a : StoreAction) :
    closes (h ++ [a]) = h.closes + if a = .close then 1 else 0 := by
  unfold closes
  rw [List.count_append, List.count_singleton]
  by_cases ha : a = .close <;> simp [ha]

theorem closes_mono {before after : StoreHistory} :
    before.closes ≤ closes (before ++ after) := by
  unfold closes
  rw [List.count_append]
  omega

theorem openings_go_append (map : Nat) (h h' : StoreHistory) :
    openings.go map (h ++ h') = openings.go map h ++ openings.go (map + h.closes) h' := by
  induction h generalizing map with
  | nil => rfl
  | cons a h ih =>
      cases a with
      | close =>
          rw [List.cons_append, openings.go, openings.go, ih, closes, closes, List.count_cons_self]
          congr 2
          omega
      | _ => simp [openings.go, ih, closes]

theorem openings_concat (h : StoreHistory) (a : StoreAction) :
    openings (h ++ [a]) = h.openings ++
      match a with
      | .openSink _ name _ => [⟨name, h.closes⟩]
      | _ => [] := by
  unfold openings
  rw [openings_go_append, Nat.zero_add]
  cases a <;> rfl

theorem map_le_closes {o : Opening} (ho : o ∈ h.openings) : o.map ≤ h.closes := by
  induction h using List.reverseRecOn with
  | nil => cases ho
  | append_singleton h a ih =>
      rw [closes_concat]
      rw [openings_concat, List.mem_append] at ho
      rcases ho with ho | ho
      · have := ih ho
        omega
      · cases a with
        | openSink =>
            rw [List.mem_singleton.mp ho]
            exact Nat.le_add_right ..
        | _ => cases ho

theorem written_concat (h : StoreHistory) (a : StoreAction) (i : Nat) :
    written (h ++ [a]) i = h.written i ++ a.adds i := by
  simp [written]

theorem ended_concat (h : StoreHistory) (a : StoreAction) (i : Nat) :
    ended (h ++ [a]) i = (h.ended i || a.ends? == some i) := by
  simp [ended]

theorem map_le_of_published {p : Publication} (hp : h.published a = some p) :
    p.map ≤ h.closes := by
  simp only [published, Option.bind_eq_bind, Option.bind_eq_some_iff, Option.pure_def,
    Option.some.injEq] at hp
  obtain ⟨i, -, o, ho, rfl⟩ := hp
  exact map_le_closes (List.mem_of_getElem? ho)

theorem ne_close_of_published {p : Publication} (hp : h.published a = some p) : a ≠ .close := by
  rintro rfl
  cases hp

theorem close_of_lt (hmap : map ≤ closes (h ++ [a])) (hnew : ¬ map ≤ h.closes) :
    a = .close ∧ map = h.closes + 1 := by
  rw [closes_concat] at hmap
  by_cases ha : a = .close
  · rw [if_pos ha] at hmap
    exact ⟨ha, by omega⟩
  · rw [if_neg ha] at hmap
    exact absurd hmap hnew

theorem map_le_of_leaves (hleaves : h.Leaves map name bytes) : map ≤ h.closes := by
  obtain ⟨before, a, after, rfl, ha, -⟩ := hleaves
  have hmap : map ≤ before.closes := map_le_of_published ha
  exact Nat.le_trans hmap closes_mono

theorem not_leaves_nil : ¬ Leaves [] map name bytes := by
  rintro ⟨before, a, after, h, -⟩
  simp at h

/-- What the last action leaves: its own publication, or what it does not remove. -/
theorem leaves_concat :
    Leaves (h ++ [a]) map name bytes ↔
      h.published a = some ⟨map, name, bytes⟩ ∨
        Leaves h map name bytes ∧ ¬ h.Removes a map name := by
  constructor
  · rintro ⟨before, b, after, heq, hb, hafter⟩
    induction after using List.reverseRecOn with
    | nil =>
        obtain ⟨rfl, hab⟩ := List.append_inj' heq rfl
        cases hab
        exact .inl hb
    | append_singleton after c =>
        rw [← List.cons_append, ← List.append_assoc] at heq
        obtain ⟨rfl, hac⟩ := List.append_inj' heq rfl
        cases hac
        refine .inr ⟨⟨before, b, after, rfl, hb, ?_⟩, hafter after a [] rfl⟩
        intro mid d rest hmid
        exact hafter mid d (rest ++ [a]) (by rw [hmid, List.append_assoc, List.cons_append])
  · rintro (ha | ⟨⟨before, b, after, rfl, hb, hafter⟩, ha⟩)
    · exact ⟨h, a, [], rfl, ha, fun _ _ _ hmid => by simp at hmid⟩
    · refine ⟨before, b, after ++ [a], by simp, hb, ?_⟩
      intro mid d rest hmid
      induction rest using List.reverseRecOn with
      | nil =>
          obtain ⟨rfl, hda⟩ := List.append_inj' hmid rfl
          cases hda
          exact ha
      | append_singleton rest e =>
          rw [← List.cons_append, ← List.append_assoc] at hmid
          exact hafter mid d rest (List.append_inj' hmid rfl).1

/-! ### Owned histories -/

theorem Owned.of_append {before after : StoreHistory} (owned : Owned (before ++ after)) :
    before.Owned := by
  intro n hn i hi
  have hlt : n < (before ++ after).length := by
    rw [List.length_append]
    omega
  have := owned n hlt i (by rwa [List.getElem_append_left hn])
  rwa [List.take_append_of_le_length (by omega)] at this

theorem Owned.last (owned : Owned (h ++ [a])) (hi : a.sink? = some i) :
    i < h.openings.length ∧ h.ended i = false := by
  have := owned h.length (by simp) i (by simpa using hi)
  rwa [List.take_left] at this

/-- Nothing has been done to a sink that is not open yet. -/
theorem Owned.untouched (owned : h.Owned) (hi : h.openings.length ≤ i) :
    h.written i = [] ∧ h.ended i = false := by
  induction h using List.reverseRecOn with
  | nil => exact ⟨rfl, rfl⟩
  | append_singleton h a ih =>
      have hlen : (openings h).length ≤ i := by
        rw [openings_concat, List.length_append] at hi
        omega
      have ha : a.sink? ≠ some i := fun ha => by
        have := (owned.last ha).1
        omega
      obtain ⟨hw, he⟩ := ih owned.of_append hlen
      rw [written_concat, ended_concat, hw, he, StoreAction.adds_eq_nil ha]
      exact ⟨rfl, beq_eq_false_iff_ne.mpr fun hends => ha (StoreAction.sink?_of_ends? hends)⟩

/-- What is written to a sink is written before it ends. -/
theorem Owned.written_of_ended {before after : StoreHistory}
    (owned : Owned (before ++ after)) (hended : before.ended i = true) :
    written (before ++ after) i = before.written i ∧ after.ended i = false := by
  induction after using List.reverseRecOn with
  | nil => exact ⟨by rw [List.append_nil], rfl⟩
  | append_singleton after a ih =>
      rw [← List.append_assoc] at owned ⊢
      obtain ⟨hw, he⟩ := ih owned.of_append
      have ha : a.sink? ≠ some i := fun ha => by
        have := (owned.last ha).2
        rw [ended, List.any_append, Bool.or_eq_false_iff] at this
        exact Bool.noConfusion (hended.symm.trans this.1)
      rw [written_concat, ended_concat, hw, he, StoreAction.adds_eq_nil ha, List.append_nil]
      exact ⟨rfl, beq_eq_false_iff_ne.mpr fun hends => ha (StoreAction.sink?_of_ends? hends)⟩

/-- The sink that a history holds for one of its openings. -/
def held (h : StoreHistory) (i : Nat) (o : Opening) : HeldSink :=
  { sink := ⟨o.name, .artifacts o.map, if h.ended i then [] else h.written i⟩
    committed := h.ended i }

theorem held_concat (o : Opening) (ha : a.sink? ≠ some i) :
    held (h ++ [a]) i o = h.held i o := by
  have hends : (a.ends? == some i) = false :=
    beq_eq_false_iff_ne.mpr fun he => ha (StoreAction.sink?_of_ends? he)
  unfold held
  rw [written_concat, ended_concat, StoreAction.adds_eq_nil ha, hends, Bool.or_false,
    List.append_nil]

end StoreHistory

/-! ## The maps of a store -/

namespace UnitStore

variable {s : UnitStore} {sink : Sink} {k map : Nat}

/-- All maps of a store in memory, the current one last. -/
def maps (s : UnitStore) : List ArtifactMap :=
  match s.memory with
  | none => []
  | some m => m.closed ++ [m.current]

theorem memory_of_maps (hk : k < s.maps.length) : ∃ m, s.memory = some m := by
  unfold maps at hk
  cases hm : s.memory with
  | none => simp [hm] at hk
  | some m => exact ⟨m, rfl⟩

theorem currentMap_eq (s : UnitStore) : s.currentMap = s.maps.length - 1 := by
  unfold currentMap maps
  cases s.memory with
  | none => rfl
  | some m => simp

theorem mapAt_eq (hk : k < s.maps.length) : s.mapAt k = (s.maps[k]?).getD [] := by
  obtain ⟨m, hm⟩ := memory_of_maps hk
  unfold maps at hk ⊢
  unfold mapAt
  simp only [hm, List.length_append, List.length_singleton] at hk ⊢
  by_cases hlt : k < m.closed.length
  · rw [if_pos hlt, List.getElem?_append_left hlt]
  · rw [if_neg hlt, show k = m.closed.length by omega, List.getElem?_concat_length]
    rfl

theorem mapAt_currentMap (s : UnitStore) : s.mapAt s.currentMap = s.artifacts := by
  unfold mapAt currentMap artifacts
  cases s.memory <;> simp

/-- A sink of an artifact is opened on the current map. -/
theorem openOutput_artifact (hk : k + 1 = s.maps.length) (l : Location) (name : String)
    (sibling : Option CompilationUnit) :
    s.openOutput l name .artifact sibling = ⟨name, .artifacts k, []⟩ := by
  obtain ⟨m, hm⟩ := memory_of_maps (s := s) (k := k) (by omega)
  rw [maps, hm, List.length_append, List.length_singleton] at hk
  unfold openOutput
  simp only [hm]
  rw [show k = m.closed.length by omega]

/-- A sink publishes in the one map that it was opened on. -/
theorem maps_dropSink (htarget : sink.target = .artifacts k) (hk : k < s.maps.length) :
    (s.dropSink sink).maps = s.maps.modify k fun t => t.put sink.name sink.buffer := by
  obtain ⟨m, hm⟩ := memory_of_maps hk
  have hmaps : s.maps = m.closed ++ [m.current] := by rw [maps, hm]
  have hdrop : (s.dropSink sink).maps =
      (m.publish k sink.name sink.buffer).closed ++ [(m.publish k sink.name sink.buffer).current] := by
    rw [dropSink, htarget, maps, hm]
    rfl
  rw [hdrop, hmaps, Memory.publish]
  rw [hmaps, List.length_append, List.length_singleton] at hk
  by_cases hlt : k < m.closed.length
  · rw [if_pos hlt, List.modify_eq_take_cons_drop hlt,
      List.modify_eq_take_cons_drop (by rw [List.length_append]; omega),
      List.take_append_of_le_length (by omega), List.drop_append_of_le_length (by omega),
      List.getElem_append_left hlt, List.append_assoc, List.cons_append]
  · rw [if_neg hlt, show k = m.closed.length by omega]
    simp [List.modify_eq_take_cons_drop]

theorem maps_takeArtifacts (hk : k + 1 = s.maps.length) :
    s.takeArtifacts.2.maps = s.maps.modify k fun _ => [] := by
  obtain ⟨m, hm⟩ := memory_of_maps (s := s) (k := k) (by omega)
  have hmaps : s.maps = m.closed ++ [m.current] := by rw [maps, hm]
  have htake : s.takeArtifacts.2.maps = m.closed ++ [[]] := by simp [takeArtifacts, maps, hm]
  rw [hmaps, List.length_append, List.length_singleton] at hk
  rw [htake, hmaps, show k = m.closed.length by omega]
  simp [List.modify_eq_take_cons_drop]

theorem maps_close (hk : k < s.maps.length) : s.close.maps = s.maps ++ [[]] := by
  obtain ⟨m, hm⟩ := memory_of_maps hk
  simp [close, maps, hm]

theorem maps_takeDeferred (s : UnitStore) : s.takeDeferred.2.maps = s.maps := by
  unfold takeDeferred maps
  cases s.memory <;> rfl

theorem maps_input (s : UnitStore) (t : FileTree) (l : Location) (name : String)
    (kind : UnitKind) : (s.input t l name kind).2.maps = s.maps := by
  unfold input
  split
  · rfl
  · rfl
  · next hm =>
      split
      · rfl
      · split
        · rfl
        · rw [maps, maps, hm]

end UnitStore

/-! ## What a run keeps -/

namespace StoreRun

open StoreHistory

variable {r : StoreRun} {h : StoreHistory} {a : StoreAction} {i map : Nat} {o : Opening}

/-- A run holds the sinks that a history opened, and has a map for each time that the store
was closed besides the current one. -/
structure Tracks (h : StoreHistory) (r : StoreRun) : Prop where
  maps : r.store.maps.length = h.closes + 1
  sinks : r.sinks = h.openings.mapIdx h.held

namespace Tracks

theorem fresh (files : FileTree) (search : Option SearchPath) :
    Tracks [] (StoreRun.fresh files search) where
  maps := rfl
  sinks := rfl

theorem sink_of_open (tracks : Tracks h r) (ho : h.openings[i]? = some o)
    (hopen : h.ended i = false) :
    r.sinks[i]? = some ⟨⟨o.name, .artifacts o.map, h.written i⟩, false⟩ := by
  rw [tracks.sinks, List.getElem?_mapIdx, ho, Option.map_some, held, hopen]
  rfl

theorem letGo (tracks : Tracks h r) (ho : h.openings[i]? = some o) (hopen : h.ended i = false) :
    r.letGo i =
      { r with
        store := r.store.dropSink ⟨o.name, .artifacts o.map, h.written i⟩
        sinks := r.sinks.modify i HeldSink.spent } := by
  unfold StoreRun.letGo
  rw [tracks.sink_of_open ho hopen]

/-- Closing a sink does what dropping it does: the bytes are committed once. -/
theorem closeSink (tracks : Tracks h r) (ho : h.openings[i]? = some o)
    (hopen : h.ended i = false) : r.step (.closeSink i) = r.step (.dropSink i) := by
  have hcommit : r.commit i = r.letGo i := by
    rw [tracks.letGo ho hopen]
    unfold StoreRun.commit
    rw [tracks.sink_of_open ho hopen]
    rfl
  have hspent : (r.letGo i).sinks[i]? = some ⟨⟨o.name, .artifacts o.map, []⟩, true⟩ := by
    rw [tracks.letGo ho hopen]
    simp [tracks.sink_of_open ho hopen, HeldSink.spent]
  show (r.commit i).letGo i = r.letGo i
  rw [hcommit, StoreRun.letGo, hspent]

/-- What an action does to the maps: it publishes in one of them, empties the current one or
begins a new one. -/
theorem step_maps (tracks : Tracks h r) (owned : Owned (h ++ [a])) :
    (r.step a).store.maps =
      match h.published a with
      | some p => r.store.maps.modify p.map fun t => t.put p.name p.bytes
      | none =>
          if a = .take then r.store.maps.modify h.closes fun _ => []
          else if a = .close then r.store.maps ++ [[]]
          else r.store.maps := by
  have hlast : h.closes + 1 = r.store.maps.length := tracks.maps.symm
  have drop {i : Nat} (ha : a.ends? = some i) :
      ∃ p, h.published a = some p ∧ r.step a = r.letGo i ∧
        (r.letGo i).store.maps = r.store.maps.modify p.map fun t => t.put p.name p.bytes := by
    obtain ⟨hlt, hopen⟩ := owned.last (StoreAction.sink?_of_ends? ha)
    have ho := List.getElem?_eq_getElem hlt
    have hmap := map_le_closes (List.getElem_mem hlt)
    refine ⟨⟨h.openings[i].map, h.openings[i].name, h.written i⟩, ?_, ?_, ?_⟩
    · simp [published, ha, ho]
    · cases a <;> cases ha
      · exact tracks.closeSink ho hopen
      · rfl
    · rw [tracks.letGo ho hopen]
      exact UnitStore.maps_dropSink rfl (show h.openings[i].map < r.store.maps.length by omega)
  cases a with
  | closeSink i | dropSink i =>
      obtain ⟨p, hp, hstep, hmaps⟩ := drop rfl
      rw [hstep, hp, hmaps]
  | take => exact UnitStore.maps_takeArtifacts hlast
  | close => exact UnitStore.maps_close (k := h.closes) (by omega)
  | find location name kind => exact UnitStore.maps_input ..
  | takeDeferred => exact UnitStore.maps_takeDeferred _
  | openSink | write | read | setLocation => rfl

theorem length_maps (tracks : Tracks h r) (owned : Owned (h ++ [a])) :
    (r.step a).store.maps.length = closes (h ++ [a]) + 1 := by
  rw [tracks.step_maps owned, closes_concat]
  split
  · next p hp => rw [List.length_modify, tracks.maps, if_neg (ne_close_of_published hp)]
  · by_cases htake : a = .take
    · rw [if_pos htake, List.length_modify, tracks.maps, if_neg (by rw [htake]; exact nofun)]
    · rw [if_neg htake]
      by_cases hclose : a = .close
      · rw [if_pos hclose, if_pos hclose, List.length_append, tracks.maps]
        rfl
      · rw [if_neg hclose, if_neg hclose, tracks.maps]

/-- What is done to one sink that is held, when no other is opened. -/
theorem sinks_modify (tracks : Tracks h r) {f : HeldSink → HeldSink} (ha : a.sink? = some i)
    (hf : ∀ o, held (h ++ [a]) i o = f (h.held i o)) :
    r.sinks.modify i f = (openings (h ++ [a])).mapIdx (held (h ++ [a])) := by
  have hsame : openings (h ++ [a]) = h.openings := by
    rw [openings_concat]
    cases a <;> simp_all [StoreAction.sink?]
  rw [tracks.sinks, hsame]
  apply List.ext_getElem?
  intro j
  rw [List.getElem?_modify, List.getElem?_mapIdx, List.getElem?_mapIdx]
  by_cases hij : i = j
  · subst hij
    cases h.openings[i]? with
    | none => rfl
    | some o => simp [hf]
  · have hne : a.sink? ≠ some j := fun hj => hij (Option.some.inj (ha.symm.trans hj))
    cases h.openings[j]? with
    | none => rfl
    | some o => simp [hij, held_concat o hne]

/-- What is done to no sink leaves those that are held as they are. -/
theorem sinks_same (tracks : Tracks h r) (ha : a.sink? = none) :
    r.sinks = h.openings.mapIdx (held (h ++ [a])) := by
  rw [tracks.sinks]
  apply List.ext_getElem?
  intro j
  rw [List.getElem?_mapIdx, List.getElem?_mapIdx]
  cases h.openings[j]? with
  | none => rfl
  | some o => rw [Option.map_some, Option.map_some, held_concat o (by rw [ha]; exact nofun)]

/-- A sink that is let go of is spent. -/
theorem sinks_letGo (tracks : Tracks h r) (owned : Owned (h ++ [a])) (ha : a.ends? = some i) :
    (r.letGo i).sinks = (openings (h ++ [a])).mapIdx (held (h ++ [a])) := by
  obtain ⟨hlt, hopen⟩ := owned.last (StoreAction.sink?_of_ends? ha)
  rw [tracks.letGo (List.getElem?_eq_getElem hlt) hopen]
  apply tracks.sinks_modify (StoreAction.sink?_of_ends? ha)
  intro o
  unfold held HeldSink.spent
  simp [ended_concat, ha]

/-- One action keeps what a run holds. -/
theorem step (tracks : Tracks h r) (owned : Owned (h ++ [a])) : Tracks (h ++ [a]) (r.step a) where
  maps := tracks.length_maps owned
  sinks := by
    cases a with
    | openSink location name sibling =>
        have hopened : r.store.openOutput location name .artifact sibling =
            ⟨name, .artifacts h.closes, []⟩ :=
          UnitStore.openOutput_artifact tracks.maps.symm ..
        have hnew := owned.of_append.untouched (Nat.le_refl _)
        show r.sinks ++ [⟨r.store.openOutput location name .artifact sibling, false⟩] = _
        rw [tracks.sinks_same (a := .openSink location name sibling) rfl, openings_concat,
          List.mapIdx_concat, hopened, held_concat _ (by exact nofun), held, hnew.1, hnew.2]
        rfl
    | write i bytes =>
        obtain ⟨-, hopen⟩ := owned.last rfl
        apply tracks.sinks_modify rfl
        intro o
        unfold held
        simp [written_concat, ended_concat, hopen, StoreAction.ends?, StoreAction.adds, Sink.write]
    | closeSink i =>
        obtain ⟨hlt, hopen⟩ := owned.last rfl
        rw [tracks.closeSink (List.getElem?_eq_getElem hlt) hopen]
        exact tracks.sinks_letGo owned rfl
    | dropSink i => exact tracks.sinks_letGo owned rfl
    | take | read | close | setLocation | find | takeDeferred =>
        rw [openings_concat, List.append_nil]
        exact tracks.sinks_same rfl

/-- A run on a new store keeps what its history says. -/
theorem run (files : FileTree) (search : Option SearchPath) (owned : h.Owned) :
    Tracks h ((StoreRun.fresh files search).run h) := by
  induction h using List.reverseRecOn with
  | nil => exact fresh files search
  | append_singleton h a ih =>
      rw [run_concat]
      exact (ih owned.of_append).step owned

end Tracks

variable {files : FileTree} {search : Option SearchPath} {name : String} {bytes : Bytes}

/-- What one action does to one of the maps. -/
theorem mapAt_step (owned : Owned (h ++ [a])) (hmap : map ≤ h.closes) :
    (((fresh files search).run h).step a).store.mapAt map =
      let old := ((fresh files search).run h).store.mapAt map
      match h.published a with
      | some p => if p.map = map then old.put p.name p.bytes else old
      | none => if a = .take ∧ h.closes = map then [] else old := by
  have tracks := Tracks.run files search owned.of_append
  have hlt : map < ((fresh files search).run h).store.maps.length := by
    rw [tracks.maps]
    omega
  have hlt' : map < (((fresh files search).run h).step a).store.maps.length := by
    rw [tracks.length_maps owned, closes_concat]
    omega
  rw [UnitStore.mapAt_eq hlt, UnitStore.mapAt_eq hlt', tracks.step_maps owned,
    List.getElem?_eq_getElem hlt]
  cases h.published a with
  | some p => by_cases hp : p.map = map <;> simp [hlt, hp]
  | none =>
      by_cases htake : a = .take
      · by_cases hcloses : h.closes = map <;> simp [hlt, htake, hcloses]
      · by_cases hclose : a = .close <;> simp [hlt, htake, hclose, List.getElem?_append_left]

/-- The map that a store begins with when it is closed is empty. -/
theorem mapAt_new (owned : Owned (h ++ [.close])) :
    (((fresh files search).run h).step .close).store.mapAt (h.closes + 1) = [] := by
  have tracks := Tracks.run files search owned.of_append
  have hmaps := tracks.step_maps owned
  rw [UnitStore.mapAt_eq (by rw [tracks.length_maps owned, closes_concat]; exact Nat.lt_succ_self _),
    hmaps, ← tracks.maps]
  exact congrArg (Option.getD · []) List.getElem?_concat_length

/-- No name stands twice in a map. -/
theorem names_nodup (owned : h.Owned) (hmap : map ≤ h.closes) :
    (((fresh files search).run h).store.mapAt map).names.Nodup := by
  induction h using List.reverseRecOn generalizing map with
  | nil =>
      rw [Nat.le_zero.mp hmap]
      exact List.nodup_nil
  | append_singleton h a ih =>
      rw [run_concat]
      by_cases hold : map ≤ closes h
      · rw [mapAt_step owned hold]
        have := ih owned.of_append hold
        split
        · split
          · exact Table.names_nodup_put this ..
          · exact this
        · split
          · exact List.nodup_nil
          · exact this
      · obtain ⟨rfl, rfl⟩ := close_of_lt hmap hold
        rw [mapAt_new owned]
        exact List.nodup_nil

/-- A map holds what its history leaves in it. -/
theorem find?_mapAt (owned : h.Owned) (hmap : map ≤ h.closes) :
    (((fresh files search).run h).store.mapAt map).find? name = some bytes ↔
      h.Leaves map name bytes := by
  induction h using List.reverseRecOn generalizing map with
  | nil =>
      rw [Nat.le_zero.mp hmap]
      exact ⟨nofun, fun hleaves => absurd hleaves not_leaves_nil⟩
  | append_singleton h a ih =>
      rw [run_concat, leaves_concat]
      by_cases hold : map ≤ closes h
      · rw [mapAt_step owned hold, ← ih owned.of_append hold]
        unfold Removes
        cases hp : published h a with
        | some p =>
            have htake : a ≠ .take := by rintro rfl; cases hp
            by_cases hmap : p.map = map
            · by_cases hname : name = p.name
              · subst hmap hname
                simp [Table.find?_put, htake, Publication.ext_iff]
              · simp [hmap, Table.find?_put, hname, htake, Publication.ext_iff, Ne.symm hname]
            · simp [hmap, htake, Publication.ext_iff]
        | none => by_cases htake : a = .take ∧ closes h = map <;> simp [htake]
      · obtain ⟨rfl, rfl⟩ := close_of_lt hmap hold
        rw [mapAt_new owned]
        constructor
        · exact nofun
        · rintro (hp | ⟨hleaves, -⟩)
          · cases hp
          · exact absurd (map_le_of_leaves hleaves) hold

/-- What a history of a new store does to its maps. -/
structure Publishes (files : FileTree) (search : Option SearchPath) (h : StoreHistory) : Prop where
  /-- A sink ends once. All that was ever written to it is then published, under its name, in
  the map that was current when it was opened. -/
  once : ∀ (before after : StoreHistory) (a : StoreAction) (i : Nat), h = before ++ a :: after →
    a.ends? = some i → before.ended i = false ∧ after.ended i = false ∧
      ∃ o, h.openings[i]? = some o ∧
        published before a = some ⟨o.map, o.name, h.written i⟩
  /-- What is published is put in its map; artifacts that are taken leave the current map;
  nothing else that is done changes a map. -/
  changes : ∀ (before after : StoreHistory) (a : StoreAction), h = before ++ a :: after →
    ∀ map ≤ before.closes, ((fresh files search).run (before ++ [a])).store.mapAt map =
      let old := ((fresh files search).run before).store.mapAt map
      match published before a with
      | some p => if p.map = map then old.put p.name p.bytes else old
      | none => if a = .take ∧ before.closes = map then [] else old
  /-- The current map is that of the last time the store was closed. -/
  current : ((fresh files search).run h).store.currentMap = h.closes ∧
    ((fresh files search).run h).store.artifacts =
      ((fresh files search).run h).store.mapAt h.closes
  /-- What was opened before the store was closed is published in an earlier map. -/
  separate : ∀ before after : StoreHistory, h = before ++ .close :: after →
    ∀ o ∈ before.openings, o.map < h.closes
  /-- A map holds under each name the bytes that were published there last and not taken
  since, and nothing else. -/
  holds : ∀ map ≤ h.closes,
    (((fresh files search).run h).store.mapAt map).names.Nodup ∧
      ∀ name bytes, (((fresh files search).run h).store.mapAt map).find? name = some bytes ↔
        h.Leaves map name bytes

/-- Whatever is done to a store in memory and its sinks, in whatever order, the maps are what
the history of it says. -/
theorem publishes_run (files : FileTree) (search : Option SearchPath) {h : StoreHistory}
    (owned : h.Owned) : Publishes files search h where
  once := by
    rintro before after a i rfl ha
    have owned' : Owned ((before ++ [a]) ++ after) := by rwa [List.append_assoc]
    obtain ⟨hlt, hopen⟩ := owned'.of_append.last (StoreAction.sink?_of_ends? ha)
    obtain ⟨hwritten, hafter⟩ := owned'.written_of_ended (i := i) (by simp [ended_concat, ha])
    have ho := List.getElem?_eq_getElem hlt
    refine ⟨hopen, hafter, before.openings[i], ?_, ?_⟩
    · unfold openings
      rw [openings_go_append]
      exact (List.getElem?_append_left hlt).trans ho
    · rw [List.append_assoc] at hwritten
      have hadds : a.adds i = [] := by cases a <;> first | rfl | cases ha
      rw [show written (before ++ a :: after) i = _ from hwritten, written_concat, hadds,
        List.append_nil]
      simp [published, ha, ho]
  changes := by
    rintro before after a rfl map hmap
    have owned' : Owned ((before ++ [a]) ++ after) := by rwa [List.append_assoc]
    rw [run_concat]
    exact mapAt_step owned'.of_append hmap
  current := by
    have hcurrent : ((fresh files search).run h).store.currentMap = h.closes := by
      rw [UnitStore.currentMap_eq, (Tracks.run files search owned).maps, Nat.add_sub_cancel]
    exact ⟨hcurrent, by rw [← hcurrent, UnitStore.mapAt_currentMap]⟩
  separate := by
    rintro before after rfl o ho
    have hmap := map_le_closes ho
    have hcloses : closes (before ++ [.close]) ≤ closes ((before ++ [.close]) ++ after) :=
      closes_mono
    rw [closes_concat, List.append_assoc] at hcloses
    exact Nat.lt_of_le_of_lt hmap hcloses
  holds := fun _ hmap => ⟨names_nodup owned hmap, fun _ _ => find?_mapAt owned hmap⟩

/-- Two sinks of one name are open across a take and a close of the store, and a third one
is dropped. -/
def interleaved : StoreHistory :=
  [.openSink .classOutput "A" none, .write 0 [1], .openSink .classOutput "A" none, .write 1 [2],
    .closeSink 1, .take, .write 0 [3], .openSink .classOutput "B" none, .close,
    .openSink .classOutput "A" none, .write 3 [4], .closeSink 0, .read, .dropSink 3,
    .write 2 [5], .dropSink 2]

theorem publishes_interleaved :
    interleaved.Owned ∧ Publishes .empty none interleaved ∧
      ((fresh .empty none).run interleaved).store.mapAt 0 =
        [("A", [1, 3]), ("B", [5])] ∧
      ((fresh .empty none).run interleaved).store.artifacts = [("A", [4])] := by
  have owned : interleaved.Owned := by decide
  exact ⟨owned, publishes_run _ _ owned, by decide, by decide⟩

end StoreRun

end ProbeLang
