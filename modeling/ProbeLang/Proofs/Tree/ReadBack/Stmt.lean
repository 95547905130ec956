import Mathlib.Logic.Basic
import ProbeLang.Proofs.Tree.ReadBack.Expr

/-!
# Reading statements back

A statement is read back in front of what may stand behind it (`Stmt.ReadBack`). Behind a statement
that has been read as a whole there was a token, and if that was no `else` the statement may end in
an `if` that would take one. So what is known of a statement is known together with the kind of the
token that its reader left (`Parse.Leaves`).
-/

namespace ProbeLang

open Bare

theorem Stmt.printAll_eq_flatMap (ss : List Stmt) :
    Stmt.printAll ss = ss.flatMap Stmt.print := by
  induction ss with
  | nil => rfl
  | cons s ss ih => rw [Stmt.printAll, ih, List.flatMap_cons]

theorem Stmt.placelessAll_eq_map (ss : List Stmt) :
    Stmt.placelessAll ss = ss.map Stmt.placeless := by
  induction ss with
  | nil => rfl
  | cons s ss ih => rw [Stmt.placelessAll, ih, List.map_cons]

/-! ## How statements begin -/

/-- The kinds of token that a statement begins with. -/
def Stmt.heads : List Token.Kind :=
  [.openBrace, .semicolon, .kwIf, .kwWhile, .kwFor, .kwReturn, .kwThrow, .kwSynchronized] ++
    (TypeName.heads ++ Expr.heads)

theorem Stmt.begins_print (s : Stmt) : Parse.Begins Stmt.heads s.print := by
  cases s with
  | declare d =>
      refine (d.type.begins_print.append.append).mono fun kind hkind => ?_
      exact List.mem_append_right _ (List.mem_append_left _ hkind)
  | expr pos value =>
      refine value.begins_print.append.mono fun kind hkind => ?_
      exact List.mem_append_right _ (List.mem_append_right _ hkind)
  | block pos body => exact ⟨_, _, rfl, by decide⟩
  | ifThen pos cond s => exact ⟨_, _, rfl, by decide⟩
  | ifElse pos cond s t => exact ⟨_, _, rfl, by decide⟩
  | whileLoop pos cond body => exact ⟨_, _, rfl, by decide⟩
  | forLoop pos init cond update body => exact ⟨_, _, rfl, by decide⟩
  | ret pos value => exact ⟨_, _, rfl, by decide⟩
  | throw pos value => exact ⟨_, _, rfl, by decide⟩
  | synchronized pos lock bodyPos body => exact ⟨_, _, rfl, by decide⟩
  | empty pos => exact ⟨_, _, rfl, by decide⟩

namespace Parse

variable {w v : Bare} {ws : List Bare} {s k : TokenStream}

/-! ## Telling declarations from expressions -/

theorem dropPairs_spells (first second : Token.Kind) (h : Spells (w :: v :: ws) s k)
    (hw : w.kind = first) (hv : v.kind = second) : ∃ j, Spells ws j k ∧
      TokenStream.dropPairs first second (s.current :: s.rest) =
        TokenStream.dropPairs first second (j.current :: j.rest) := by
  cases h with
  | cons h =>
      cases h with
      | cons h => exact ⟨_, h, if_pos ⟨hw, hv⟩⟩

theorem dropPairs_of_ne {first second : Token.Kind} (h : s.current.kind ≠ first) :
    TokenStream.dropPairs first second (s.current :: s.rest) = s.current :: s.rest := by
  obtain ⟨t, rest⟩ := s
  cases rest with
  | nil => rfl
  | cons t' rest => exact if_neg fun hpair => h hpair.1

/-- The further segments of a name are dropped. -/
theorem dropPairs_path (hws : ∀ {j : TokenStream}, Spells ws j k → j.current.kind ≠ .dot) :
    ∀ (segments : List String) {s : TokenStream},
    Spells ((segments.flatMap fun s => [sign .dot, .ident s]) ++ ws) s k → ∃ j, Spells ws j k ∧
      TokenStream.dropPairs .dot .identifier (s.current :: s.rest) = j.current :: j.rest
  | [], s, h => ⟨s, h, dropPairs_of_ne (hws h)⟩
  | _ :: segments, s, h => by
      obtain ⟨j, hj, hdrop⟩ := dropPairs_spells .dot .identifier h rfl rfl
      rw [hdrop]
      exact dropPairs_path hws segments hj

/-- The brackets of a type are dropped. -/
theorem dropPairs_dims (hws : ∀ {j : TokenStream}, Spells ws j k → j.current.kind ≠ .openBracket) :
    ∀ (n : Nat) {s : TokenStream}, Spells (printDims n ++ ws) s k → ∃ j, Spells ws j k ∧
      TokenStream.dropPairs .openBracket .closeBracket (s.current :: s.rest) = j.current :: j.rest
  | 0, s, h => ⟨s, h, dropPairs_of_ne (hws h)⟩
  | n + 1, s, h => by
      obtain ⟨j, hj, hdrop⟩ := dropPairs_spells .openBracket .closeBracket h rfl rfl
      rw [hdrop]
      exact dropPairs_dims hws n hj

/-- A type with a name behind it begins a declaration. -/
theorem startsLocal_type {t : TypeRef} {name : String}
    (h : Spells (t.print ++ .ident name :: ws) s k) : s.startsLocal = true := by
  obtain ⟨base, dims, pos⟩ := t
  cases base with
  | void | int | long | boolean => rw [TokenStream.startsLocal, h.kind_eq]; rfl
  | named path =>
      rw [TypeRef.print, List.append_assoc] at h
      have hkind : s.current.kind = .identifier := h.kind_eq
      have hdot {j : TokenStream} (hj : Spells (printDims dims ++ .ident name :: ws) j k) :
          j.current.kind ≠ .dot := by
        cases dims with
        | zero => exact hj.kind_eq.trans_ne (show Token.Kind.identifier ≠ .dot by decide)
        | succ n => exact hj.kind_eq.trans_ne (by decide)
      have hopen {j : TokenStream} (hj : Spells (.ident name :: ws) j k) :
          j.current.kind ≠ .openBracket :=
        hj.kind_eq.trans_ne (show Token.Kind.identifier ≠ .openBracket by decide)
      obtain ⟨s', h, hrest⟩ := h.rest
      obtain ⟨j, hj, hpath⟩ := dropPairs_path hdot _ h
      obtain ⟨j', hj', hdims⟩ := dropPairs_dims hopen _ hj
      rw [TokenStream.startsLocal, hkind, hrest]
      dsimp only
      rw [hpath, hdims]
      exact decide_eq_true hj'.kind_eq

/-- An identifier that no dot, bracket or identifier follows begins no declaration. -/
theorem startsLocal_identifier (h : s.current.kind = .identifier) {j : TokenStream}
    (hrest : s.rest = j.current :: j.rest)
    (hj : j.current.kind ∉ [Token.Kind.dot, .openBracket, .identifier]) :
    s.startsLocal = false := by
  simp only [List.mem_cons, List.not_mem_nil, or_false, not_or] at hj
  rw [TokenStream.startsLocal, h, hrest]
  dsimp only
  rw [dropPairs_of_ne hj.1, dropPairs_of_ne hj.2.1]
  exact decide_eq_false hj.2.2

/-- No expression begins a declaration. -/
theorem startsLocal_expr {e : Expr} (h : Spells e.print s k) (hk : ends k.current.kind = true) :
    s.startsLocal = false := by
  obtain ⟨w, ws, hprint, hkind, hident⟩ := e.head_print
  rw [hprint] at h
  by_cases hw : w.kind = .identifier
  · have hcurrent := h.kind_eq.trans hw
    obtain ⟨j, hj, hrest⟩ := h.rest
    refine startsLocal_identifier hcurrent hrest ?_
    rcases hident hw with rfl | ⟨vs, rfl⟩
    · cases hj
      exact of_decide_eq_true
        (ends_of (J := fun kind => decide (kind ∉ [.dot, .openBracket, .identifier])) rfl _ hk)
    · rw [hj.kind_eq]
      decide
  · rw [← h.kind_eq] at hkind hw
    unfold TokenStream.startsLocal
    split
    · next hkw => rw [hkw] at hkind; exact absurd hkind (by decide)
    · next hkw => rw [hkw] at hkind; exact absurd hkind (by decide)
    · next hkw => rw [hkw] at hkind; exact absurd hkind (by decide)
    · next hkw => rw [hkw] at hkind; exact absurd hkind (by decide)
    · next hkw => exact absurd hkw hw
    · rfl

end Parse

/-! ## What it is to be read back -/

/-- Whether the declaration of a local variable is read back. -/
structure LocalVar.ReadBack (d : LocalVar) : Prop where
  type : d.type.Readable
  base : d.type.base ≠ .void
  name : Identifier d.name.name
  init : ∀ e ∈ d.init, e.ReadBack
  slot : d.slot = none

/-- Whether the first part of a `for` header is read back. -/
def ForInit.ReadBack : ForInit → Prop
  | .none => True
  | .declare d => d.ReadBack
  | .expr _ e => e.ReadBack

/-- What may stand behind a statement that has been read in front of a token: an `else` only if that
token was one. -/
def Parse.behind (next : Token.Kind) : Parse.Kinds :=
  fun kind => kind != .kwElse || next == .kwElse

/-- Whether two statements differ in positions alone. -/
abbrev Stmt.Like (s s' : Stmt) : Prop :=
  s'.placeless = s.placeless

/-- Whether a statement is read back in front of what may stand there. -/
structure Stmt.ReadBack (next : Token.Kind) (s : Stmt) : Prop where
  legible : ∀ w ∈ s.print, w.Legible
  stmt : ∀ {fuel : Nat}, 4 * s.print.length ≤ fuel →
    Parse.Takes (Parse.stmt fuel) s.print (Parse.behind next) s.Like

namespace Parse

variable {α β : Type} {K : Kinds} {ws : List Bare} {fuel : Nat} {pos : Pos} {next : Token.Kind}

/-! ## Parts of statements -/

theorem legible_init {init : Option Expr} (h : ∀ e ∈ init, e.ReadBack) :
    ∀ w ∈ printInit init, w.Legible := by
  cases init with
  | none => exact List.forall_mem_nil _
  | some e => exact List.forall_mem_cons.mpr ⟨legible_sign rfl, (h e rfl).legible⟩

theorem takes_initialiser {init : Option Expr} (h : ∀ e ∈ init, e.ReadBack)
    (hfuel : 4 * (printInit init).length ≤ fuel) :
    Takes (initialiser? fuel) (printInit init) ends
      fun init' => init'.map Expr.placeless = init.map Expr.placeless := by
  cases init with
  | none => exact .reject (ends_of rfl) (.pure rfl)
  | some e =>
      simp only [printInit, List.length_cons] at hfuel
      refine .accept rfl (((h e rfl).expr (by omega)).bind_last (fun _ h => h) fun e' he' => ?_)
      exact .pure (congrArg some he')

theorem legible_print? {e : Option Expr} (h : ∀ x ∈ e, x.ReadBack) :
    ∀ w ∈ Expr.print? e, w.Legible := by
  cases e with
  | none => exact List.forall_mem_nil _
  | some e => exact (h e rfl).legible

theorem takes_exprUnless {stop : Token.Kind} {e : Option Expr} (h : ∀ x ∈ e, x.ReadBack)
    (hstop : Expr.heads.all (· != stop) = true) (hends : ends stop = true)
    (hfuel : 4 * (Expr.print? e).length ≤ fuel) :
    Takes (exprUnless stop fuel) (Expr.print? e) (· == stop)
      fun e' => e'.map Expr.placeless = e.map Expr.placeless := by
  cases e with
  | none => exact .check_last (fun _ hnext => eq_of_beq hnext) (.pure rfl)
  | some e =>
      refine .check_false (e.begins_print.admits hstop) ?_
      refine ((h e rfl).expr hfuel).bind_last (fun kind hkind => ?_) fun e' he' => ?_
      · rw [eq_of_beq hkind]
        exact hends
      · exact .pure (congrArg some he')

theorem legible_localVar {d : LocalVar} (h : d.ReadBack) : ∀ w ∈ d.print, w.Legible :=
  List.forall_mem_append.mpr
    ⟨h.type.legible, List.forall_mem_cons.mpr ⟨legible_ident h.name, legible_init h.init⟩⟩

theorem takes_localVar {d : LocalVar} (h : d.ReadBack) (hfuel : 4 * d.print.length ≤ fuel) :
    Takes (localVar fuel) d.print ends fun d' => d'.placeless = d.placeless := by
  simp only [LocalVar.print, List.length_append, List.length_cons] at hfuel
  refine (takes_type h.type (by omega)).bind rfl fun t ht => ?_
  rw [if_neg (base_ne_void ht h.base)]
  refine .ident fun p => (takes_initialiser h.init (by omega)).bind_last (fun _ h => h) ?_
  intro init hinit
  exact .pure (by simp [LocalVar.placeless, Ident.placeless, ht, hinit, h.slot])

theorem legible_forInit {init : ForInit} (h : init.ReadBack) : ∀ w ∈ init.print, w.Legible := by
  cases init with
  | none => exact List.forall_mem_nil _
  | declare d => exact legible_localVar h
  | expr pos e => exact Expr.ReadBack.legible h

theorem takes_forInit {init : ForInit} (h : init.ReadBack) (hfuel : 4 * init.print.length ≤ fuel) :
    Takes (forInit fuel) init.print (· == .semicolon)
      fun init' => init'.placeless = init.placeless := by
  have hends (kind : Token.Kind) (hkind : (kind == .semicolon) = true) : ends kind = true := by
    rw [eq_of_beq hkind]
    rfl
  refine .get fun s k hs hk => ?_
  cases init with
  | none =>
      cases hs
      rw [if_pos (eq_of_beq hk)]
      exact .pure rfl
  | declare d =>
      have hsemicolon : ¬ s.current.kind = .semicolon := by
        have hhead : Admits d.print (· == .semicolon) (· != .semicolon) :=
          d.type.begins_print.append.admits rfl
        exact bne_iff_ne.mp (hs.admits hk hhead)
      rw [if_neg hsemicolon, if_pos (startsLocal_type hs)]
      refine (takes_localVar h hfuel).bind_last hends fun d' hd' => ?_
      exact .pure (congrArg ForInit.declare hd')
  | expr pos e =>
      have hsemicolon : ¬ s.current.kind = .semicolon :=
        bne_iff_ne.mp (hs.admits (J := (· != .semicolon)) (hends _ hk) (e.begins_print.admits rfl))
      rw [if_neg hsemicolon, startsLocal_expr hs (hends _ hk), if_neg Bool.false_ne_true]
      refine (Expr.ReadBack.expr h hfuel).bind_last hends fun e' he' => .pure ?_
      exact congrArg (ForInit.expr .none) he'

theorem legible_braced (h : ∀ w ∈ ws, w.Legible) : ∀ w ∈ braced ws, w.Legible :=
  List.forall_mem_cons.mpr ⟨legible_sign rfl,
    List.forall_mem_append.mpr ⟨h, List.forall_mem_singleton.mpr (legible_sign rfl)⟩⟩

theorem legible_stmts {ss : List Stmt} (h : ∀ s ∈ ss, ∃ next, s.ReadBack next) :
    ∀ w ∈ Stmt.printAll ss, w.Legible := by
  rw [Stmt.printAll_eq_flatMap]
  refine List.forall_mem_flatMap.mpr fun s hs => ?_
  obtain ⟨next, hs⟩ := h s hs
  exact hs.legible

/-- No statement begins with an `else`, so each is read back in front of the next one. -/
theorem takes_blockRest {ss : List Stmt} (h : ∀ s ∈ ss, ∃ next, s.ReadBack next)
    (hfuel : 4 * (Stmt.printAll ss).length < fuel) :
    Takes (blockRest fuel []) (Stmt.printAll ss ++ [sign .closeBrace]) K
      fun body => Stmt.placelessAll body = Stmt.placelessAll ss := by
  simp only [Stmt.printAll_eq_flatMap, Stmt.placelessAll_eq_map] at hfuel ⊢
  have htail : Admits [sign .closeBrace] K (· != .kwElse) := rfl
  refine takes_repeated htail rfl (fun {fuel done} => ?_) (fun s _ => s.begins_print)
    (fun s hs fuel done ws Q hfuel hws hrest => ?_) hfuel
  · rw [blockRest]
    exact .accept rfl (.pure rfl)
  · obtain ⟨next, hs⟩ := h s hs
    rw [blockRest]
    refine .reject (s.begins_print.append.admits rfl) ?_
    refine .check_false (s.begins_print.append.admits rfl) ?_
    refine (hs.stmt hfuel).bind (hws.mono fun kind hkind => ?_) hrest
    exact Bool.or_eq_true _ _ ▸ .inl hkind

theorem takes_block {ss : List Stmt} (h : ∀ s ∈ ss, ∃ next, s.ReadBack next)
    (hfuel : 4 * (braced (Stmt.printAll ss)).length ≤ fuel + 4) :
    Takes (block fuel) (braced (Stmt.printAll ss)) K
      fun b => Stmt.placelessAll b.body = Stmt.placelessAll ss := by
  simp only [braced, List.length_cons, List.length_append] at hfuel
  obtain ⟨fuel, rfl⟩ : ∃ n, fuel = n + 1 := ⟨fuel - 1, by omega⟩
  rw [block]
  refine .expect rfl fun t _ => (takes_blockRest h (by omega)).bind_last (fun _ h => h) ?_
  exact fun body hbody => .pure hbody

/-! ## Statements -/

theorem readBack_empty : (Stmt.empty pos).ReadBack next := by
  refine ⟨List.forall_mem_singleton.mpr (legible_sign rfl), fun {fuel} hfuel => ?_⟩
  have hlength := Stmt.length_print_pos (.empty pos)
  obtain ⟨fuel, rfl⟩ : ∃ n, fuel = n + 1 := ⟨fuel - 1, by omega⟩
  rw [stmt]
  refine .get fun s k hs _ => ?_
  rw [hs.kind_eq]
  exact .advance fun _ _ => .pure rfl

theorem readBack_block {ss : List Stmt} (h : ∀ s ∈ ss, ∃ next, s.ReadBack next) :
    (Stmt.block pos ss).ReadBack next := by
  refine ⟨legible_braced (legible_stmts h), fun {fuel} hfuel => ?_⟩
  rw [Stmt.print] at hfuel ⊢
  obtain ⟨fuel, rfl⟩ : ∃ n, fuel = n + 1 := ⟨fuel - 1, by simp [braced] at hfuel; omega⟩
  rw [stmt]
  refine .get fun s k hs _ => ?_
  rw [hs.kind_eq]
  refine (takes_block h (by omega)).bind_last (fun _ h => h) fun b hb => .pure ?_
  exact congrArg (Stmt.block .none) hb

/-- Behind a statement that stood in front of no `else`, none is taken. -/
theorem behind_ne (hnext : next ≠ .kwElse) (kind : Token.Kind) (h : behind next kind = true) :
    (kind != .kwElse) = true := by
  rcases Bool.or_eq_true _ _ ▸ h with h | h
  · exact h
  · exact absurd (eq_of_beq h) hnext

theorem readBack_ifThen {cond : Expr} {s : Stmt} (hcond : cond.ReadBack) (hs : s.ReadBack next)
    (hnext : next ≠ .kwElse) : (Stmt.ifThen pos cond s).ReadBack next := by
  refine ⟨List.forall_mem_cons.mpr ⟨legible_sign rfl,
    List.forall_mem_append.mpr ⟨legible_enclosed hcond.legible, hs.legible⟩⟩,
    fun {fuel} hfuel => ?_⟩
  simp only [Stmt.print, List.length_cons, List.length_append] at hfuel
  obtain ⟨fuel, rfl⟩ : ∃ n, fuel = n + 1 := ⟨fuel - 1, by omega⟩
  rw [stmt]
  refine .get fun st k hst _ => ?_
  rw [hst.kind_eq]
  refine .advance fun _ _ => (takes_parenthesised hcond (by omega)).bind_any fun cond' hcond' => ?_
  refine (hs.stmt (by omega)).bind_last (fun _ h => h) fun s' hs' => ?_
  refine .reject (behind_ne hnext) (.pure ?_)
  exact congrArg₂ (Stmt.ifThen .none) hcond' hs'

theorem readBack_ifElse {cond : Expr} {s t : Stmt} (hcond : cond.ReadBack)
    (hs : s.ReadBack .kwElse) (ht : t.ReadBack next) :
    (Stmt.ifElse pos cond s t).ReadBack next := by
  refine ⟨?_, fun {fuel} hfuel => ?_⟩
  · simp only [Stmt.print, List.forall_mem_cons, List.forall_mem_append]
    exact ⟨legible_sign rfl, legible_enclosed hcond.legible, hs.legible, legible_sign rfl,
      ht.legible⟩
  simp only [Stmt.print, List.length_cons, List.length_append] at hfuel
  obtain ⟨fuel, rfl⟩ : ∃ n, fuel = n + 1 := ⟨fuel - 1, by omega⟩
  rw [stmt]
  refine .get fun st k hst _ => ?_
  rw [hst.kind_eq]
  refine .advance fun _ _ => (takes_parenthesised hcond (by omega)).bind_any fun cond' hcond' => ?_
  refine (hs.stmt (by omega)).bind rfl fun s' hs' => .accept rfl ?_
  refine (ht.stmt (by omega)).bind_last (fun _ h => h) fun t' ht' => .pure ?_
  rw [Stmt.Like, Stmt.placeless, Stmt.placeless, hcond', hs', ht']

theorem readBack_whileLoop {cond : Expr} {body : Stmt} (hcond : cond.ReadBack)
    (hbody : body.ReadBack next) : (Stmt.whileLoop pos cond body).ReadBack next := by
  refine ⟨List.forall_mem_cons.mpr ⟨legible_sign rfl,
    List.forall_mem_append.mpr ⟨legible_enclosed hcond.legible, hbody.legible⟩⟩,
    fun {fuel} hfuel => ?_⟩
  simp only [Stmt.print, List.length_cons, List.length_append] at hfuel
  obtain ⟨fuel, rfl⟩ : ∃ n, fuel = n + 1 := ⟨fuel - 1, by omega⟩
  rw [stmt]
  refine .get fun st k hst _ => ?_
  rw [hst.kind_eq]
  refine .advance fun _ _ => (takes_parenthesised hcond (by omega)).bind_any fun cond' hcond' => ?_
  refine (hbody.stmt (by omega)).bind_last (fun _ h => h) fun body' hbody' => .pure ?_
  exact congrArg₂ (Stmt.whileLoop .none) hcond' hbody'

theorem readBack_forLoop {init : ForInit} {cond update : Option Expr} {body : Stmt}
    (hinit : init.ReadBack) (hcond : ∀ e ∈ cond, e.ReadBack) (hupdate : ∀ e ∈ update, e.ReadBack)
    (hbody : body.ReadBack next) : (Stmt.forLoop pos init cond update body).ReadBack next := by
  refine ⟨?_, fun {fuel} hfuel => ?_⟩
  · simp only [Stmt.print, List.forall_mem_cons, List.forall_mem_append]
    exact ⟨legible_sign rfl, legible_sign rfl, legible_forInit hinit, legible_sign rfl,
      legible_print? hcond, legible_sign rfl, legible_print? hupdate, legible_sign rfl,
      hbody.legible⟩
  simp only [Stmt.print, List.length_cons, List.length_append] at hfuel
  obtain ⟨fuel, rfl⟩ : ∃ n, fuel = n + 1 := ⟨fuel - 1, by omega⟩
  rw [stmt]
  refine .get fun st k hst _ => ?_
  rw [hst.kind_eq]
  refine .advance fun _ _ => .expect rfl fun _ _ => ?_
  refine (takes_forInit hinit (by omega)).bind rfl fun init' hinit' => .expect rfl fun _ _ => ?_
  refine (takes_exprUnless hcond rfl rfl (by omega)).bind rfl fun cond' hcond' => ?_
  refine .expect rfl fun _ _ => ?_
  refine (takes_exprUnless hupdate rfl rfl (by omega)).bind rfl fun update' hupdate' => ?_
  refine .expect rfl fun _ _ => ?_
  refine (hbody.stmt (by omega)).bind_last (fun _ h => h) fun body' hbody' => .pure ?_
  rw [Stmt.Like, Stmt.placeless, Stmt.placeless, hinit', hcond', hupdate', hbody']

theorem readBack_ret {value : Option Expr} (hvalue : ∀ e ∈ value, e.ReadBack) :
    (Stmt.ret pos value).ReadBack next := by
  refine ⟨List.forall_mem_cons.mpr ⟨legible_sign rfl, List.forall_mem_append.mpr
    ⟨legible_print? hvalue, List.forall_mem_singleton.mpr (legible_sign rfl)⟩⟩,
    fun {fuel} hfuel => ?_⟩
  simp only [Stmt.print, List.length_cons, List.length_append] at hfuel
  obtain ⟨fuel, rfl⟩ : ∃ n, fuel = n + 1 := ⟨fuel - 1, by omega⟩
  rw [stmt]
  refine .get fun st k hst _ => ?_
  rw [hst.kind_eq]
  refine .advance fun _ _ => ?_
  refine (takes_exprUnless hvalue rfl rfl (by omega)).bind rfl fun value' hvalue' => ?_
  exact .expect rfl fun _ _ => .pure (congrArg (Stmt.ret .none) hvalue')

theorem readBack_throw {value : Expr} (hvalue : value.ReadBack) :
    (Stmt.throw pos value).ReadBack next := by
  refine ⟨List.forall_mem_cons.mpr ⟨legible_sign rfl, List.forall_mem_append.mpr
    ⟨hvalue.legible, List.forall_mem_singleton.mpr (legible_sign rfl)⟩⟩, fun {fuel} hfuel => ?_⟩
  simp only [Stmt.print, List.length_cons, List.length_append] at hfuel
  obtain ⟨fuel, rfl⟩ : ∃ n, fuel = n + 1 := ⟨fuel - 1, by omega⟩
  rw [stmt]
  refine .get fun st k hst _ => ?_
  rw [hst.kind_eq]
  refine .advance fun _ _ => (hvalue.expr (by omega)).bind rfl fun value' hvalue' => ?_
  exact .expect rfl fun _ _ => .pure (congrArg (Stmt.throw .none) hvalue')

theorem readBack_synchronized {lock : Expr} {bodyPos : Pos} {ss : List Stmt}
    (hlock : lock.ReadBack) (h : ∀ s ∈ ss, ∃ next, s.ReadBack next) :
    (Stmt.synchronized pos lock bodyPos ss).ReadBack next := by
  refine ⟨List.forall_mem_cons.mpr ⟨legible_sign rfl, List.forall_mem_append.mpr
    ⟨legible_enclosed hlock.legible, legible_braced (legible_stmts h)⟩⟩, fun {fuel} hfuel => ?_⟩
  simp only [Stmt.print, List.length_cons, List.length_append] at hfuel
  obtain ⟨fuel, rfl⟩ : ∃ n, fuel = n + 1 := ⟨fuel - 1, by omega⟩
  rw [stmt]
  refine .get fun st k hst _ => ?_
  rw [hst.kind_eq]
  refine .advance fun _ _ => (takes_parenthesised hlock (by omega)).bind_any fun lock' hlock' => ?_
  refine (takes_block h (by omega)).bind_last (fun _ h => h) fun b hb => .pure ?_
  rw [Stmt.Like, Stmt.placeless, Stmt.placeless, hlock', hb]

/-- The kinds of token that tell at once which statement they begin. -/
def leading : List Token.Kind :=
  [.openBrace, .semicolon, .kwIf, .kwWhile, .kwFor, .kwReturn, .kwThrow, .kwSynchronized]

theorem readBack_declare {d : LocalVar} (hd : d.ReadBack) : (Stmt.declare d).ReadBack next := by
  refine ⟨List.forall_mem_append.mpr
    ⟨legible_localVar hd, List.forall_mem_singleton.mpr (legible_sign rfl)⟩, fun {fuel} hfuel => ?_⟩
  simp only [Stmt.print, List.length_cons, List.length_append] at hfuel
  obtain ⟨fuel, rfl⟩ : ∃ n, fuel = n + 1 := ⟨fuel - 1, by omega⟩
  rw [stmt]
  refine .get fun st k hst hk => ?_
  have hleading : st.current.kind ∉ leading := by
    have hhead : Admits (Stmt.declare d).print (behind next) fun kind => decide (kind ∉ leading) :=
      d.type.begins_print.append.append.admits (by decide)
    exact of_decide_eq_true (hst.admits hk hhead)
  rw [Stmt.print, LocalVar.print, List.append_assoc] at hst
  have hlocal := startsLocal_type hst
  split
  case h_9 =>
    rw [if_pos hlocal]
    refine (takes_localVar hd (by omega)).bind rfl fun d' hd' => .expect rfl fun _ _ => .pure ?_
    exact congrArg Stmt.declare hd'
  all_goals
    next hkind =>
      rw [hkind] at hleading
      exact absurd hleading (by decide)

theorem readBack_exprStmt {value : Expr} (hvalue : value.ReadBack) :
    (Stmt.expr pos value).ReadBack next := by
  refine ⟨List.forall_mem_append.mpr
    ⟨hvalue.legible, List.forall_mem_singleton.mpr (legible_sign rfl)⟩, fun {fuel} hfuel => ?_⟩
  simp only [Stmt.print, List.length_cons, List.length_append] at hfuel
  obtain ⟨fuel, rfl⟩ : ∃ n, fuel = n + 1 := ⟨fuel - 1, by omega⟩
  rw [stmt]
  refine .get fun st k hst hk => ?_
  have hleading : st.current.kind ∉ Token.Kind.kwClass :: leading := by
    have hhead : Admits (Stmt.expr pos value).print (behind next)
        fun kind => decide (kind ∉ Token.Kind.kwClass :: leading) :=
      value.begins_print.append.admits (by decide)
    exact of_decide_eq_true (hst.admits hk hhead)
  obtain ⟨j, hj, hsemicolon⟩ := hst.append
  have hlocal : st.startsLocal = false := startsLocal_expr hj (by rw [hsemicolon.kind_eq]; rfl)
  split
  case h_9 =>
    have hclass : ¬ st.current.kind = .kwClass := fun h => hleading (h ▸ List.mem_cons_self)
    rw [hlocal, if_neg Bool.false_ne_true, if_neg hclass]
    refine (hvalue.expr (by omega)).bind rfl fun value' hvalue' => .expect rfl fun _ _ => .pure ?_
    exact congrArg (Stmt.expr .none) hvalue'
  all_goals
    next hkind =>
      rw [hkind] at hleading
      exact absurd hleading (by decide)

/-! ## What has been read -/

/-- Whether all that a reader can answer has a property, together with the kind of the token that
it leaves. -/
def Leaves {α : Type} (m : Parse α) (Q : α → Token.Kind → Prop) : Prop :=
  ∀ s a t, Worded s → m.run s = .ok (a, t) → Worded t ∧ Q a t.current.kind

namespace Leaves

variable {m : Parse α} {f : α → Parse β} {P : α → Prop} {Q : α → Token.Kind → Prop}
  {R : β → Token.Kind → Prop}

theorem pure {b : β} (h : ∀ next, R b next) : Leaves (pure b) R := by
  intro s _ t hs hrun
  obtain ⟨rfl, rfl⟩ := pure_ok hrun
  exact ⟨hs, h _⟩

theorem fail {fault : SyntaxFault} : Leaves (Parse.fail fault) R := by
  rintro s b t hs hrun
  cases hrun

theorem yields (h : Leaves m Q) : Yields m fun a => ∃ next, Q a next :=
  fun s a t hs hrun => (h s a t hs hrun).imp_right fun hq => ⟨_, hq⟩

theorem bind (hm : Yields m P) (hf : ∀ a, P a → Leaves (f a) R) : Leaves (m >>= f) R := by
  intro s b t hs hrun
  obtain ⟨a, s', ha, hrun⟩ := bind_ok hrun
  obtain ⟨hs', hp⟩ := hm s a s' hs ha
  exact hf a hp s' b t hs' hrun

/-- What is read first does not count. -/
theorem skip [hm : Passes m] (hf : ∀ a, Leaves (f a) R) : Leaves (m >>= f) R :=
  bind hm.yields fun a _ => hf a

/-- What is made of an answer leaves what the answer left. -/
theorem map {g : α → β} (hm : Leaves m Q) (hg : ∀ a next, Q a next → R (g a) next) :
    Leaves (m >>= fun a => Pure.pure (g a)) R := by
  intro s b t hs hrun
  obtain ⟨a, s', ha, hrun⟩ := bind_ok hrun
  obtain ⟨rfl, rfl⟩ := pure_ok hrun
  exact (hm s a s' hs ha).imp_right (hg a _)

/-- Behind an answer there is a token of some kind or there is none. -/
theorem accept {kind : Token.Kind} {g : α → β} (hm : Leaves m Q)
    (hf : ∀ a, Q a kind → Leaves (f a) R)
    (hg : ∀ a next, next ≠ kind → Q a next → R (g a) next) :
    Leaves (do
      let a ← m
      if ← Parse.accept kind then f a else Pure.pure (g a)) R := by
  intro s b t hs hrun
  obtain ⟨a, s', ha, hrun⟩ := bind_ok hrun
  obtain ⟨hs', hq⟩ := hm s a s' hs ha
  obtain ⟨found, s₁, hfound, hrun⟩ := bind_ok hrun
  obtain ⟨there, s₂, hcheck, hfound⟩ := bind_ok hfound
  cases hcheck
  by_cases hkind : s'.current.kind = kind
  · rw [if_pos (beq_iff_eq.mpr hkind)] at hfound
    obtain ⟨_, s₃, hadvance, hfound⟩ := bind_ok hfound
    cases hadvance
    obtain ⟨rfl, rfl⟩ := pure_ok hfound
    rw [if_pos rfl] at hrun
    exact hf a (hkind ▸ hq) _ b t (worded_advance hs') hrun
  · rw [if_neg (fun h => hkind (beq_iff_eq.mp h))] at hfound
    obtain ⟨rfl, rfl⟩ := pure_ok hfound
    rw [if_neg Bool.false_ne_true] at hrun
    obtain ⟨rfl, rfl⟩ := pure_ok hrun
    exact ⟨hs', hg a _ hkind hq⟩

end Leaves

theorem rereads_initialiser (fuel : Nat) :
    Yields (initialiser? fuel) fun init => ∀ e ∈ init, e.ReadBack := by
  unfold initialiser?
  refine .skip fun _ => ?_
  split
  · refine (rereads_expr fuel).bind fun e he => .pure ?_
    rintro _ ⟨⟩
    exact he
  · exact .pure nofun

theorem rereads_localVar (fuel : Nat) : Yields (localVar fuel) LocalVar.ReadBack := by
  unfold localVar
  refine (yields_readableType fuel).bind fun t ht => ?_
  split
  · intro s a t hs hrun
    cases hrun
  · next hbase =>
      refine yields_ident.bind fun name hname => ?_
      refine (rereads_initialiser fuel).bind fun init hinit => ?_
      exact .pure ⟨ht, hbase, hname, hinit, rfl⟩

theorem rereads_exprUnless (stop : Token.Kind) (fuel : Nat) :
    Yields (exprUnless stop fuel) fun e => ∀ x ∈ e, x.ReadBack := by
  unfold exprUnless
  refine .skip fun _ => ?_
  split
  · exact .pure nofun
  · refine (rereads_expr fuel).bind fun e he => .pure ?_
    rintro _ ⟨⟩
    exact he

theorem rereads_forInit (fuel : Nat) : Yields (forInit fuel) ForInit.ReadBack := by
  unfold forInit
  refine .skip fun s => ?_
  split
  · exact .pure trivial
  · split
    · exact (rereads_localVar fuel).bind fun d hd => .pure hd
    · exact (rereads_expr fuel).bind fun e he => .pure he

mutual

/-- Every statement that has been read is read back in front of what stood behind it. -/
theorem rereads_stmt : ∀ fuel, Leaves (stmt fuel) fun s next => s.ReadBack next
  | 0 => .fail
  | fuel + 1 => by
      unfold stmt
      refine .skip fun s => ?_
      dsimp only
      split
      · exact .bind (rereads_block fuel) fun b hb => .pure fun _ => readBack_block hb
      · exact .skip fun _ => .pure fun _ => readBack_empty
      · refine .skip fun _ => .bind (rereads_parenthesised fuel) fun cond hcond => ?_
        refine .accept (rereads_stmt fuel) (fun s hs => ?_) fun s next hnext hs =>
          readBack_ifThen hcond hs hnext
        exact .map (rereads_stmt fuel) fun t next ht => readBack_ifElse hcond hs ht
      · refine .skip fun _ => .bind (rereads_parenthesised fuel) fun cond hcond => ?_
        exact .map (rereads_stmt fuel) fun body next hbody => readBack_whileLoop hcond hbody
      · refine .skip fun _ => .skip fun _ => .bind (rereads_forInit fuel) fun init hinit => ?_
        refine .skip fun _ => .bind (rereads_exprUnless _ fuel) fun cond hcond => ?_
        refine .skip fun _ => .bind (rereads_exprUnless _ fuel) fun update hupdate => ?_
        refine .skip fun _ => .map (rereads_stmt fuel) fun body next hbody => ?_
        exact readBack_forLoop hinit hcond hupdate hbody
      · refine .skip fun _ => .bind (rereads_exprUnless _ fuel) fun value hvalue => ?_
        exact .skip fun _ => .pure fun _ => readBack_ret hvalue
      · refine .skip fun _ => .bind (rereads_expr fuel) fun value hvalue => ?_
        exact .skip fun _ => .pure fun _ => readBack_throw hvalue
      · refine .skip fun _ => .bind (rereads_parenthesised fuel) fun lock hlock => ?_
        exact .bind (rereads_block fuel) fun b hb => .pure fun _ => readBack_synchronized hlock hb
      · split
        · refine .bind (rereads_localVar fuel) fun d hd => ?_
          exact .skip fun _ => .pure fun _ => readBack_declare hd
        · split
          · exact .fail
          · refine .bind (rereads_expr fuel) fun value hvalue => ?_
            exact .skip fun _ => .pure fun _ => readBack_exprStmt hvalue

theorem rereads_block : ∀ fuel,
    Yields (block fuel) fun b => ∀ s ∈ b.body, ∃ next, s.ReadBack next
  | 0 => .fail
  | fuel + 1 => .skip fun _ =>
      (rereads_blockRest fuel [] (List.forall_mem_nil _)).bind fun _ hbody => .pure hbody

theorem rereads_blockRest : ∀ fuel (done : List Stmt), (∀ s ∈ done, ∃ next, s.ReadBack next) →
    Yields (blockRest fuel done) fun body => ∀ s ∈ body, ∃ next, s.ReadBack next
  | 0, _, _ => .fail
  | fuel + 1, done, hdone => by
      unfold blockRest
      refine .skip fun _ => ?_
      split
      · exact .pure fun s hs => hdone s (List.mem_reverse.mp hs)
      · refine .skip fun _ => ?_
        split
        · exact .fail
        · refine (rereads_stmt fuel).yields.bind fun s hs => ?_
          exact rereads_blockRest fuel _ (List.forall_mem_cons.mpr ⟨hs, hdone⟩)

end

end Parse

end ProbeLang
