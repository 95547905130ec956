import ProbeLang.Proofs.Tree.Parsed
import ProbeLang.Proofs.Tree.Printing
import ProbeLang.Proofs.Tree.Taking

/-!
# Reading lists back

Items that a reader takes one by one are taken as a list: with commas between them up to a closing
parenthesis (`Parse.takes_listed`), or one behind another up to what ends them
(`Parse.takes_repeated`). What is the same of every item that is read and the item that is printed
is the same of the lists.
-/

namespace ProbeLang

open Bare

theorem Bare.length_listed (items : List (List Bare)) : 0 < (listed items).length := by
  cases items with
  | nil => exact Nat.one_pos
  | cons item items =>
      cases items with
      | nil => simp [listed]
      | cons next items =>
          rw [listed.eq_3 _ _ (List.cons_ne_nil next items), List.length_append, List.length_cons]
          omega

theorem Bare.legible_listed : ∀ {items : List (List Bare)},
    (∀ ws ∈ items, ∀ w ∈ ws, w.Legible) → ∀ w ∈ listed items, w.Legible
  | [], _ => List.forall_mem_singleton.mpr (legible_sign rfl)
  | [item], h => List.forall_mem_append.mpr
      ⟨h item List.mem_cons_self, List.forall_mem_singleton.mpr (legible_sign rfl)⟩
  | item :: next :: items, h => by
      obtain ⟨hitem, hitems⟩ := List.forall_mem_cons.mp h
      exact List.forall_mem_append.mpr
        ⟨hitem, List.forall_mem_cons.mpr ⟨legible_sign rfl, legible_listed hitems⟩⟩

namespace Parse

variable {α γ : Type} {K J : Kinds} {loop : Nat → List α → Parse (List α)} {item : Nat → Parse α}
  {print : α → List Bare} {kept : α → γ} {kinds : List Token.Kind}

/-- The kinds of token that stand behind an expression. -/
def ends : Kinds
  | .closeParen | .comma | .semicolon | .closeBracket => true
  | _ => false

theorem ends_of {J : Kinds}
    (h : [Token.Kind.closeParen, .comma, .semicolon, .closeBracket].all J = true) :
    ∀ kind, ends kind = true → J kind = true := by
  intro kind hkind
  refine List.all_eq_true.mp h kind ?_
  cases kind <;> first | decide | cases hkind

/-! ## With commas between the items -/

/-- Whether a reader reads items with commas between them up to a closing parenthesis. -/
def Lists (loop : Nat → List α → Parse (List α)) (item : Nat → Parse α) : Prop :=
  ∀ fuel done, loop (fuel + 1) done = do
    if ← accept .closeParen then
      return done.reverse
    else
      let a ← item fuel
      if !(← check .closeParen) then
        let _ ← expect .comma
      loop fuel (a :: done)

/-- Behind an item the closing parenthesis stands, or a comma and the next item. -/
theorem takes_listed (hloop : Lists loop item) (hclose : kinds.all (· != .closeParen) = true) :
    ∀ {items : List α} {fuel : Nat} {done : List α},
    (∀ a ∈ items, Begins kinds (print a)) →
    (∀ a ∈ items, ∀ {fuel : Nat}, 4 * (print a).length ≤ fuel →
      Takes (item fuel) (print a) ends fun a' => kept a' = kept a) →
    4 * (listed (items.map print)).length ≤ fuel + 3 →
    Takes (loop fuel done) (listed (items.map print)) K
      fun as => as.map kept = (done.reverse ++ items).map kept := by
  intro items
  induction items with
  | nil =>
      intro fuel done _ _ hfuel
      obtain ⟨fuel, rfl⟩ : ∃ n, fuel = n + 1 := ⟨fuel - 1, by simp [listed] at hfuel; omega⟩
      rw [hloop]
      exact .accept rfl (.pure (by rw [List.append_nil]))
  | cons a items ih =>
      intro fuel done hheads hitems hfuel
      obtain ⟨hhead, hheads⟩ := List.forall_mem_cons.mp hheads
      obtain ⟨hitem, hitems⟩ := List.forall_mem_cons.mp hitems
      have hlength := hhead.length_pos
      have hmore {a' : α} {as : List α} (ha : kept a' = kept a)
          (h : as.map kept = ((a' :: done).reverse ++ items).map kept) :
          as.map kept = (done.reverse ++ a :: items).map kept := by
        rw [h]
        simp [ha]
      cases items with
      | nil =>
          simp only [List.map_cons, List.map_nil, listed, List.length_append, List.length_cons,
            List.length_nil] at hfuel ⊢
          obtain ⟨fuel, rfl⟩ : ∃ n, fuel = n + 1 := ⟨fuel - 1, by omega⟩
          rw [hloop]
          refine .reject (hhead.append.admits hclose) ?_
          refine (hitem (by omega)).bind rfl fun a' ha => .check_true rfl ?_
          have hrest := @ih fuel (a' :: done) hheads hitems (by
            simp only [List.map_nil, listed, List.length_cons, List.length_nil]
            omega)
          exact hrest.mono (fun _ h => h) fun _ h => hmore ha h
      | cons b items =>
          simp only [List.map_cons, listed, List.length_append, List.length_cons] at hfuel ⊢
          obtain ⟨fuel, rfl⟩ : ∃ n, fuel = n + 1 := ⟨fuel - 1, by omega⟩
          rw [hloop]
          refine .reject (hhead.append.admits hclose) ?_
          refine (hitem (by omega)).bind rfl fun a' ha => .check_false rfl ?_
          refine .expect rfl fun _ _ => ?_
          have hrest := @ih fuel (a' :: done) hheads hitems (by
            rw [List.map_cons]
            omega)
          exact hrest.mono (fun _ h => h) fun _ h => hmore ha h

/-- What holds of each item that is read holds of all those that are listed. -/
theorem yields_listed {P : α → Prop} (hloop : Lists loop item)
    (hzero : ∀ done, Yields (loop 0 done) fun as => ∀ a ∈ as, P a)
    (hitem : ∀ fuel, Yields (item fuel) P) : ∀ (fuel : Nat) (done : List α), (∀ a ∈ done, P a) →
    Yields (loop fuel done) fun as => ∀ a ∈ as, P a
  | 0, done, _ => hzero done
  | fuel + 1, done, hdone => by
      rw [hloop]
      refine .skip fun _ => ?_
      split
      · exact .pure fun a ha => hdone a (List.mem_reverse.mp ha)
      · refine (hitem fuel).bind fun a ha => .skip fun _ => ?_
        have hcons := List.forall_mem_cons.mpr ⟨ha, hdone⟩
        split
        · exact .skip fun _ => yields_listed hloop hzero hitem fuel _ hcons
        · exact yields_listed hloop hzero hitem fuel _ hcons

/-! ## One behind another -/

/-- Items one behind another begin as one of them does, or as what stands behind them. -/
theorem admits_flatMap {items : List α} {tail : List Bare}
    (hheads : ∀ a ∈ items, Begins kinds (print a)) (hJ : kinds.all J = true)
    (htail : Admits tail K J) : Admits (items.flatMap print ++ tail) K J := by
  cases items with
  | nil => exact htail
  | cons a items =>
      rw [List.flatMap_cons, List.append_assoc]
      exact (hheads a List.mem_cons_self).append.admits hJ

/-- Every item is taken in front of what begins the next one or ends them all. -/
theorem takes_repeated {tail : List Bare} (htail : Admits tail K J) (hJ : kinds.all J = true)
    (hstop : ∀ {fuel : Nat} {done : List α},
      Takes (loop (fuel + 1) done) tail K (· = done.reverse)) :
    ∀ {items : List α} {fuel : Nat} {done : List α},
    (∀ a ∈ items, Begins kinds (print a)) →
    (∀ a ∈ items, ∀ {fuel : Nat} {done : List α} {ws : List Bare} {Q : List α → Prop},
      4 * (print a).length ≤ fuel → Admits ws K J →
      (∀ a', kept a' = kept a → Takes (loop fuel (a' :: done)) ws K Q) →
      Takes (loop (fuel + 1) done) (print a ++ ws) K Q) →
    4 * (items.flatMap print).length < fuel →
    Takes (loop fuel done) (items.flatMap print ++ tail) K
      fun as => as.map kept = (done.reverse ++ items).map kept := by
  intro items
  induction items with
  | nil =>
      intro fuel done _ _ hfuel
      obtain ⟨fuel, rfl⟩ : ∃ n, fuel = n + 1 := ⟨fuel - 1, by omega⟩
      refine hstop.mono (fun _ h => h) ?_
      rintro _ rfl
      rw [List.append_nil]
  | cons a items ih =>
      intro fuel done hheads hitems hfuel
      obtain ⟨hhead, hheads⟩ := List.forall_mem_cons.mp hheads
      obtain ⟨hitem, hitems⟩ := List.forall_mem_cons.mp hitems
      have hlength := hhead.length_pos
      rw [List.flatMap_cons, List.length_append] at hfuel
      obtain ⟨fuel, rfl⟩ : ∃ n, fuel = n + 1 := ⟨fuel - 1, by omega⟩
      rw [List.flatMap_cons, List.append_assoc]
      refine hitem (by omega) (admits_flatMap hheads hJ htail) fun a' ha => ?_
      refine (ih hheads hitems (by omega)).mono (fun _ h => h) fun as h => ?_
      rw [h]
      simp [ha]

end Parse

end ProbeLang
