import ProbeLang.Proofs.Analysis.Numbering
import ProbeLang.Proofs.Stack.Places

/-!
# Frames

The slots of a method are shared out among `this`, the parameters, the local variables, and what
synchronized statements lock. The analysis numbers all but the last. The search of the tree for slots
finds the number of those (`MethodDecl.firstLock_eq`), so what is locked goes behind them, and the
slots of a method are the numbers below its count of slots, each for one thing (`MethodDecl.frame_eq`).
-/

namespace ProbeLang

open CodeM Code

/-! ## Bindings -/

/-- Whether the slots of bindings are below a bound. -/
def Bindings.Below (bound : Nat) (env : Bindings) : Prop :=
  ∀ b ∈ env, b.2 < bound

/-- Whether the slots of variables are below a bound. -/
def LocalVar.AllBelow (bound : Nat) (ds : List LocalVar) : Prop :=
  ∀ d ∈ ds, ∀ slot, d.slot = some slot → slot < bound

section Bounded

variable {bound : Nat} {env : Bindings} {ds ds' : List LocalVar}

theorem LocalVar.allBelow_append :
    AllBelow bound (ds ++ ds') ↔ AllBelow bound ds ∧ AllBelow bound ds' :=
  List.forall_mem_append

theorem LocalVar.binds_below {d : LocalVar} (henv : env.Below bound)
    (hd : ∀ slot, d.slot = some slot → slot < bound) : (d.binds env).Below bound := by
  unfold binds
  split
  · next slot hslot => exact List.forall_mem_cons.mpr ⟨hd slot hslot, henv⟩
  · exact henv

theorem ForInit.binds_below {init : ForInit} (henv : env.Below bound)
    (h : LocalVar.AllBelow bound init.localVars) : (init.binds env).Below bound := by
  cases init with
  | declare d => exact LocalVar.binds_below henv (h d List.mem_cons_self)
  | none | expr pos e => exact henv

theorem Stmt.binds_below : ∀ {s : Stmt} {env : Bindings}, env.Below bound →
    LocalVar.AllBelow bound s.localVars → (s.binds env).Below bound
  | .declare d, _, henv, h => LocalVar.binds_below henv (h d List.mem_cons_self)
  | .ifThen _ _ s, _, henv, h | .whileLoop _ _ s, _, henv, h => s.binds_below henv h
  | .ifElse _ _ s t, _, henv, h =>
      have ⟨hs, ht⟩ := LocalVar.allBelow_append.mp h
      t.binds_below (s.binds_below henv hs) ht
  | .block .., _, henv, _ | .forLoop .., _, henv, _ | .ret .., _, henv, _ | .throw .., _, henv, _
  | .synchronized .., _, henv, _ | .expr .., _, henv, _ | .empty _, _, henv, _ => henv

/-! ## The number of slots that are found -/

theorem Expr.BoundIn.lt {e : Expr} {slot : Nat} (h : e.BoundIn env) (henv : env.Below bound)
    (hslot : e.localSlot? = some slot) : slot < bound := by
  obtain ⟨name, -, hname⟩ := Option.bind_eq_some_iff.mp (h.symm.trans hslot)
  obtain ⟨before, behind, rfl, -⟩ := List.lookup_eq_some_iff.mp hname
  exact henv (name, slot) (List.mem_append_right _ List.mem_cons_self)

theorem foldl_slots_le_of_lt {es : List Expr} {n : Nat}
    (h : ∀ x ∈ es, ∀ slot, x.localSlot? = some slot → slot < bound) (hn : n ≤ bound) :
    es.foldl (fun n e => max n (e.localSlot?.elim 0 (· + 1))) n ≤ bound := by
  induction es generalizing n with
  | nil => exact hn
  | cons e es ih =>
      obtain ⟨he, hes⟩ := List.forall_mem_cons.mp h
      refine ih hes (Nat.max_le.mpr ⟨hn, ?_⟩)
      cases hslot : e.localSlot? with
      | none => exact Nat.zero_le _
      | some slot => exact he slot hslot

theorem Expr.slotsNeeded_le {e : Expr} {n : Nat} (h : e.Scoped env) (henv : env.Below bound)
    (hn : n ≤ bound) : e.slotsNeeded n ≤ bound :=
  foldl_slots_le_of_lt (fun x hx _ hslot => (h x hx).lt henv hslot) hn

theorem Expr.slotsNeeded?_le {e : Option Expr} {n : Nat} (h : Expr.Scoped? env e)
    (henv : env.Below bound) (hn : n ≤ bound) : Expr.slotsNeeded? n e ≤ bound := by
  cases e with
  | none => exact hn
  | some e => exact Expr.slotsNeeded_le h henv hn

theorem LocalVar.slotsNeeded_le {d : LocalVar} {n : Nat} (h : d.Scoped env)
    (henv : env.Below bound) (hd : ∀ slot, d.slot = some slot → slot < bound) (hn : n ≤ bound) :
    d.slotsNeeded n ≤ bound := by
  refine Expr.slotsNeeded?_le h.init henv (Nat.max_le.mpr ⟨hn, ?_⟩)
  cases hslot : d.slot with
  | none => exact Nat.zero_le _
  | some slot => exact hd slot hslot

theorem ForInit.slotsNeeded_le {init : ForInit} {n : Nat} (h : init.Scoped env)
    (henv : env.Below bound) (hds : LocalVar.AllBelow bound init.localVars) (hn : n ≤ bound) :
    init.slotsNeeded n ≤ bound := by
  cases init with
  | none => exact hn
  | declare d => exact LocalVar.slotsNeeded_le h henv (hds d List.mem_cons_self) hn
  | expr pos e => exact Expr.slotsNeeded_le h henv hn

mutual

/-- No more slots are found in a statement than its variables and those in scope take. -/
theorem Stmt.slotsNeeded_le : ∀ (s : Stmt) {env : Bindings} {n : Nat}, s.Scoped env →
    env.Below bound → LocalVar.AllBelow bound s.localVars → n ≤ bound → s.slotsNeeded n ≤ bound
  | .block _ body, _, _, h, henv, hds, hn => Stmt.allSlotsNeeded_le body h henv hds hn
  | .declare d, _, _, h, henv, hds, hn =>
      LocalVar.slotsNeeded_le h henv (hds d List.mem_cons_self) hn
  | .ifThen _ cond s, _, _, h, henv, hds, hn | .whileLoop _ cond s, _, _, h, henv, hds, hn =>
      s.slotsNeeded_le h.2 henv hds (Expr.slotsNeeded_le h.1 henv hn)
  | .ifElse _ cond s t, _, _, ⟨hcond, hs, ht⟩, henv, hds, hn => by
      obtain ⟨hds, hdt⟩ := LocalVar.allBelow_append.mp hds
      have hn' := s.slotsNeeded_le hs henv hds (Expr.slotsNeeded_le hcond henv hn)
      exact t.slotsNeeded_le ht (s.binds_below henv hds) hdt hn'
  | .forLoop _ init cond update body, _, _, ⟨hinit, hcond, hupdate, hbody⟩, henv, hds, hn => by
      obtain ⟨hdinit, hdbody⟩ := LocalVar.allBelow_append.mp hds
      have henv' := ForInit.binds_below henv hdinit
      have hn' := Expr.slotsNeeded?_le hcond henv' (ForInit.slotsNeeded_le hinit henv hdinit hn)
      exact body.slotsNeeded_le hbody henv' hdbody (Expr.slotsNeeded?_le hupdate henv' hn')
  | .ret _ value, _, _, h, henv, _, hn => Expr.slotsNeeded?_le h henv hn
  | .throw _ value, _, _, h, henv, _, hn | .expr _ value, _, _, h, henv, _, hn =>
      Expr.slotsNeeded_le h henv hn
  | .synchronized _ lock _ body, _, _, h, henv, hds, hn =>
      Stmt.allSlotsNeeded_le body h.2 henv hds (Expr.slotsNeeded_le h.1 henv hn)
  | .empty _, _, _, _, _, _, hn => hn

theorem Stmt.allSlotsNeeded_le : ∀ (ss : List Stmt) {env : Bindings} {n : Nat},
    Stmt.AllScoped env ss → env.Below bound → LocalVar.AllBelow bound (Stmt.allLocalVars ss) →
      n ≤ bound → Stmt.allSlotsNeeded n ss ≤ bound
  | [], _, _, _, _, _, hn => hn
  | s :: rest, _, _, ⟨hs, hrest⟩, henv, hds, hn => by
      obtain ⟨hds, hdrest⟩ := LocalVar.allBelow_append.mp hds
      exact Stmt.allSlotsNeeded_le rest hrest (s.binds_below henv hds) hdrest
        (s.slotsNeeded_le hs henv hds hn)

end

end Bounded

section Declared

variable {d : LocalVar} {slot : Nat}

theorem LocalVar.lt_slotsNeeded (hslot : d.slot = some slot) (n : Nat) :
    slot < d.slotsNeeded n := by
  refine Nat.lt_of_lt_of_le ?_ (Expr.le_slotsNeeded? d.init _)
  rw [hslot]
  exact Nat.lt_of_lt_of_le (Nat.lt_succ_self slot) (Nat.le_max_right _ _)

mutual

/-- The slot of every variable that is declared in a statement is found. -/
theorem Stmt.lt_slotsNeeded : ∀ (s : Stmt) {n : Nat}, d ∈ s.localVars → d.slot = some slot →
    slot < s.slotsNeeded n
  | .block _ body, _, hd, hslot | .synchronized _ _ _ body, _, hd, hslot =>
      Stmt.lt_allSlotsNeeded body hd hslot
  | .declare d', _, hd, hslot => by
      obtain rfl := List.mem_singleton.mp hd
      exact LocalVar.lt_slotsNeeded hslot _
  | .ifThen _ _ s, _, hd, hslot | .whileLoop _ _ s, _, hd, hslot => s.lt_slotsNeeded hd hslot
  | .ifElse _ _ s t, _, hd, hslot => by
      rcases List.mem_append.mp hd with hd | hd
      · exact Nat.lt_of_lt_of_le (s.lt_slotsNeeded hd hslot) (t.le_slotsNeeded _)
      · exact t.lt_slotsNeeded hd hslot
  | .forLoop _ init cond update body, n, hd, hslot => by
      rcases List.mem_append.mp hd with hd | hd
      · cases init with
        | declare d' =>
            obtain rfl := List.mem_singleton.mp hd
            refine Nat.lt_of_lt_of_le (LocalVar.lt_slotsNeeded hslot n) ?_
            exact Nat.le_trans (Expr.le_slotsNeeded? cond _)
              (Nat.le_trans (Expr.le_slotsNeeded? update _) (body.le_slotsNeeded _))
        | none | expr pos e => cases hd
      · exact body.lt_slotsNeeded hd hslot
  | .ret .., _, hd, _ | .throw .., _, hd, _ | .expr .., _, hd, _ | .empty _, _, hd, _ => nomatch hd

theorem Stmt.lt_allSlotsNeeded : ∀ (ss : List Stmt) {n : Nat}, d ∈ Stmt.allLocalVars ss →
    d.slot = some slot → slot < Stmt.allSlotsNeeded n ss
  | s :: rest, _, hd, hslot => by
      rcases List.mem_append.mp hd with hd | hd
      · exact Nat.lt_of_lt_of_le (s.lt_slotsNeeded hd hslot) (Stmt.le_allSlotsNeeded rest _)
      · exact Stmt.lt_allSlotsNeeded rest hd hslot

end

end Declared

/-! ## What synchronized statements lock -/

/-- The slot for what a synchronized statement that is spotted at a place locks. -/
def Stmt.lockSlot? : Nat × Nat × Stmt → Option Nat
  | (_, slot, .synchronized _ _ _ _) => some slot
  | _ => none

mutual

/-- The synchronized statements in a statement take one slot after the other. -/
theorem Stmt.lockSlots_spots : ∀ (s : Stmt) (pc slot : Nat),
    (s.spots pc slot).filterMap Stmt.lockSlot? = List.range' slot s.locks
  | .block _ body, pc, slot => Stmt.lockSlots_allSpots body pc slot
  | .ifThen _ _ s, _, slot | .whileLoop _ _ s, _, slot => s.lockSlots_spots _ slot
  | .ifElse _ _ s t, _, slot => by
      refine (List.filterMap_append ..).trans ?_
      rw [s.lockSlots_spots, t.lockSlots_spots, List.range'_append_1]
      rfl
  | .forLoop _ _ none _ body, _, slot | .forLoop _ _ (some _) _ body, _, slot =>
      body.lockSlots_spots _ slot
  | .synchronized _ _ _ body, _, slot =>
      congrArg (slot :: ·) (Stmt.lockSlots_allSpots body _ (slot + 1))
  | .declare _, _, _ | .ret .., _, _ | .throw .., _, _ | .expr .., _, _ | .empty _, _, _ => rfl

theorem Stmt.lockSlots_allSpots : ∀ (ss : List Stmt) (pc slot : Nat),
    (Stmt.allSpots pc slot ss).filterMap Stmt.lockSlot? = List.range' slot (Stmt.locksAll ss)
  | [], _, _ => rfl
  | s :: rest, pc, slot => by
      rw [Stmt.allSpots, List.filterMap_append, s.lockSlots_spots, Stmt.lockSlots_allSpots rest,
        List.range'_append_1]
      rfl

end

/-! ## Methods -/

/-- Whether a signature has as many parameters as a method, and is static if the method is. -/
structure MethodSig.Describes (sig : MethodSig) (m : MethodDecl) : Prop where
  isStatic : sig.isStatic = m.modifiers.has .isStatic
  params : sig.params.length = m.params.length

namespace MethodDecl

variable {m : MethodDecl} {sig : MethodSig}

/-- The slots of a method, in the order of what they are for: `this`, the parameters, the local
variables, and what the synchronized statements in the method lock. -/
def frame (m : MethodDecl) (sig : MethodSig) : List (Option Nat) :=
  (if m.modifiers.has .isStatic then [] else [some 0]) ++
    m.bindings.reverse.map (fun b => some b.2) ++
    (Stmt.allLocalVars m.body.body).map LocalVar.slot ++
    ((Stmt.allSpots 0 (m.firstLock sig) m.body.body).filterMap Stmt.lockSlot?).map some

/-- The slots in front of those of the local variables. -/
theorem bindings_slots (m : MethodDecl) :
    m.bindings.reverse.map Prod.snd = List.range' m.firstSlot m.params.length := by
  rw [bindings, List.reverse_reverse, List.map_map]
  exact List.zipIdx_map_snd m.firstSlot m.params

theorem bindings_below (m : MethodDecl) :
    m.bindings.Below (m.firstSlot + m.params.length) := by
  intro b hb
  have hmem : b.2 ∈ m.bindings.reverse.map Prod.snd :=
    List.mem_map_of_mem (List.mem_reverse.mpr hb)
  rw [bindings_slots] at hmem
  exact (List.mem_range'_1.mp hmem).2

/-- What synchronized statements lock goes behind the local variables. -/
theorem firstLock_eq (h : m.Scoped) (hsig : sig.Describes m) : m.firstLock sig =
    m.firstSlot + m.params.length + (Stmt.allLocalVars m.body.body).length := by
  have hfirst : CodeM.firstSlot sig.isStatic + sig.params.length = m.firstSlot + m.params.length := by
    rw [hsig.isStatic, hsig.params, MethodDecl.firstSlot]
  rw [firstLock, hfirst]
  refine Nat.le_antisymm (Nat.max_le.mpr ⟨Nat.le_add_right _ _, ?_⟩) ?_
  · refine Stmt.allSlotsNeeded_le m.body.body h.body
      (fun b hb => Nat.lt_of_lt_of_le (m.bindings_below b hb) (Nat.le_add_right _ _))
      (fun d hd slot hslot => ?_) (Nat.zero_le _)
    have hmem := List.mem_map_of_mem (f := LocalVar.slot) hd
    rw [h.slots, hslot] at hmem
    obtain ⟨_, hmem, ⟨⟩⟩ := List.mem_map.mp hmem
    exact (List.mem_range'_1.mp hmem).2
  · -- The last variable that is declared has the last of their slots.
    rcases hcount : (Stmt.allLocalVars m.body.body).length with _ | k
    · exact Nat.le_max_left _ _
    · have hlast : some (m.firstSlot + m.params.length + k) ∈
          (Stmt.allLocalVars m.body.body).map LocalVar.slot := by
        rw [h.slots, hcount]
        exact List.mem_map_of_mem (List.mem_range'_1.mpr (by omega))
      obtain ⟨d, hd, hslot⟩ := List.mem_map.mp hlast
      exact Nat.le_trans (Stmt.lt_allSlotsNeeded m.body.body hd hslot) (Nat.le_max_right _ _)

/-- The slots of a method are different numbers, and all below their count. -/
theorem frame_eq (h : m.Scoped) (hsig : sig.Describes m) : m.frame sig =
    (List.range (m.firstLock sig + Stmt.locksAll m.body.body)).map some := by
  have hthis : (if m.modifiers.has .isStatic then [] else [some 0]) =
      (List.range' 0 m.firstSlot).map some := by
    unfold MethodDecl.firstSlot CodeM.firstSlot
    split <;> rfl
  have hparams : m.bindings.reverse.map (fun b => some b.2) =
      (List.range' m.firstSlot m.params.length).map some := by
    rw [← bindings_slots, List.map_map]
    rfl
  have hbehind {n k : Nat} : List.range' 0 n ++ List.range' n k = List.range' 0 (n + k) := by
    simpa using List.range'_append_1 (s := 0) (m := n) (n := k)
  rw [frame, hthis, hparams, h.slots, Stmt.lockSlots_allSpots, ← List.map_append, hbehind,
    ← List.map_append, hbehind, ← firstLock_eq h hsig, ← List.map_append, hbehind,
    List.range_eq_range']

end MethodDecl

end ProbeLang
