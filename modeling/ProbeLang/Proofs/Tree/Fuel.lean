import ProbeLang.Proofs.Fallible
import ProbeLang.Proofs.Token.Partition
import ProbeLang.Tree.Parser

/-!
# Fuel that is never used up

The readers of expressions answer alike for any two fuels that are large enough for what is still to
be read (`Parse.Agree`). Each reader hands on to those further down a short chain, and none comes
back to a reader above it before a token has been passed, so five units of fuel for each token are
enough. This holds of streams that end as a scanned text does (`TokenStream.Closed`): the last token
is never passed, and no operand or operator begins with it.
-/

namespace ProbeLang

namespace TokenStream

/-- Whether the last of the tokens marks the end of the text. -/
def Closed (s : TokenStream) : Prop :=
  (s.rest.getLast?.getD s.current).kind = .eof

/-- A fuel that reading an expression here does not use up. -/
def enough (s : TokenStream) : Nat :=
  5 * s.rest.length + 5

variable {s : TokenStream}

theorem Closed.advance (h : s.Closed) : s.advance.Closed := by
  obtain ⟨current, rest⟩ := s
  cases rest with
  | nil => exact h
  | cons t rest => rwa [Closed, List.getLast?_cons, Option.getD_some] at h

theorem length_advance_le (s : TokenStream) : s.advance.rest.length ≤ s.rest.length := by
  obtain ⟨current, rest⟩ := s
  cases rest with
  | nil => exact Nat.le_refl _
  | cons t rest => exact Nat.le_succ _

/-- Every token but the mark of the end is passed. -/
theorem Closed.length_advance (h : s.Closed) (hkind : s.current.kind ≠ .eof) :
    s.advance.rest.length < s.rest.length := by
  obtain ⟨current, rest⟩ := s
  cases rest with
  | nil => exact absurd h hkind
  | cons t rest => exact Nat.lt_succ_self _

end TokenStream

/-- The tokens of a text end with the mark of its end. -/
theorem TokenStream.closed_of_scan {text : String} {tokens : List Token}
    (h : Token.scan text = .ok tokens) : (TokenStream.ofList tokens).Closed := by
  obtain ⟨init, rfl, -⟩ := (Token.scan_iff_splits.mp h).ends
  cases init with
  | nil => rfl
  | cons t init => simp [Closed, ofList]

namespace Parse

variable {α β : Type} {n k : Nat} {m m' : Parse α} {f f' : α → Parse β} {s : TokenStream}
  {kind : Token.Kind}

theorem run_peek_bind {f : Token → Parse β} : (peek >>= f).run s = (f s.current).run s :=
  rfl

theorem run_accept_bind {f : Bool → Parse β} : (accept kind >>= f).run s =
    if s.current.kind = kind then (f true).run s.advance else (f false).run s := by
  have hstep : (accept kind >>= f).run s = ((if (s.current.kind == kind) = true
      then (do let _ ← advance; return true) else return false) >>= f).run s := by
    rw [accept, bind_assoc]
    rfl
  rw [hstep]
  by_cases heq : s.current.kind = kind
  · rw [if_pos (beq_iff_eq.mpr heq), if_pos heq]
    rfl
  · rw [if_neg (mt beq_iff_eq.mp heq), if_neg heq]
    rfl

/-- Whether two readers answer alike at a place, and if they succeed leave fewer than so many tokens
behind the current one. -/
structure Agree (n : Nat) (m m' : Parse α) (s : TokenStream) : Prop where
  run_eq : m.run s = m'.run s
  leaves : ∀ a t, m.run s = .ok (a, t) → t.Closed ∧ t.rest.length < n

namespace Agree

theorem pure {a : α} (hs : s.Closed) (hn : s.rest.length < n) :
    Agree n (Pure.pure a) (Pure.pure a) s where
  run_eq := rfl
  leaves := by
    intro b t hrun
    obtain ⟨-, rfl⟩ := pure_ok hrun
    exact ⟨hs, hn⟩

theorem fail {fault : SyntaxFault} : Agree n (Parse.fail fault : Parse α) (Parse.fail fault) s :=
  ⟨rfl, fun _ _ hrun => nomatch hrun⟩

theorem bind (hm : Agree k m m' s)
    (hf : ∀ a t, t.Closed → t.rest.length < k → Agree n (f a) (f' a) t) :
    Agree n (m >>= f) (m' >>= f') s where
  run_eq := by
    rw [StateT.run_bind, StateT.run_bind, ← hm.run_eq]
    cases hrun : m.run s with
    | error e => rfl
    | ok r =>
        obtain ⟨ht, hk⟩ := hm.leaves r.1 r.2 hrun
        exact (hf r.1 r.2 ht hk).run_eq
  leaves := by
    intro b t hrun
    obtain ⟨a, s', hrun, hrun'⟩ := bind_ok hrun
    obtain ⟨ht, hk⟩ := hm.leaves a s' hrun
    exact (hf a s' ht hk).leaves b t hrun'

theorem mono (h : Agree k m m' s) (hn : k ≤ n) : Agree n m m' s where
  run_eq := h.run_eq
  leaves a t hrun := (h.leaves a t hrun).imp_right (Nat.lt_of_lt_of_le · hn)

/-! ### Tokens -/

theorem get {f f' : TokenStream → Parse β} (h : Agree n (f s) (f' s) s) :
    Agree n (get >>= f) (get >>= f') s :=
  ⟨h.run_eq, h.leaves⟩

theorem peek {f f' : Token → Parse β} (h : Agree n (f s.current) (f' s.current) s) :
    Agree n (peek >>= f) (peek >>= f') s :=
  ⟨h.run_eq, h.leaves⟩

theorem check {f f' : Bool → Parse β}
    (h : Agree n (f (s.current.kind == kind)) (f' (s.current.kind == kind)) s) :
    Agree n (check kind >>= f) (check kind >>= f') s :=
  ⟨h.run_eq, h.leaves⟩

theorem advance {f f' : Token → Parse β} (hs : s.Closed)
    (h : ∀ t, t.Closed → t.rest.length ≤ s.rest.length →
      (s.current.kind ≠ .eof → t.rest.length < s.rest.length) →
      Agree n (f s.current) (f' s.current) t) : Agree n (advance >>= f) (advance >>= f') s :=
  have hrest := h s.advance hs.advance s.length_advance_le hs.length_advance
  ⟨hrest.run_eq, hrest.leaves⟩

theorem accept {f f' : Bool → Parse β} (hs : s.Closed) (hkind : kind ≠ .eof)
    (hyes : ∀ t, t.Closed → t.rest.length < s.rest.length → Agree n (f true) (f' true) t)
    (hno : Agree n (f false) (f' false) s) :
    Agree n (accept kind >>= f) (accept kind >>= f') s := by
  have hrun : ∀ g : Bool → Parse β, (Parse.accept kind >>= g).run s =
      if s.current.kind = kind then (g true).run s.advance else (g false).run s :=
    fun g => run_accept_bind
  by_cases heq : s.current.kind = kind
  · have hyes := hyes s.advance hs.advance (hs.length_advance (heq ▸ hkind))
    constructor
    · rw [hrun, hrun, if_pos heq, if_pos heq, hyes.run_eq]
    · rw [hrun, if_pos heq]
      exact hyes.leaves
  · constructor
    · rw [hrun, hrun, if_neg heq, if_neg heq, hno.run_eq]
    · rw [hrun, if_neg heq]
      exact hno.leaves

/-- What is expected is passed. -/
theorem expect {f f' : Token → Parse β} (hs : s.Closed) (hkind : kind ≠ .eof)
    (h : ∀ a t, t.Closed → t.rest.length < s.rest.length → Agree n (f a) (f' a) t) :
    Agree n (expect kind >>= f) (expect kind >>= f') s := by
  rw [Parse.expect, bind_assoc, bind_assoc]
  apply peek
  by_cases heq : s.current.kind = kind
  · rw [if_pos heq]
    exact advance hs fun t ht _ hlt => h s.current t ht (hlt (heq ▸ hkind))
  · rw [if_neg heq]
    have hfail : Agree 0 (if s.current.kind = .eof then Parse.fail .endOfFile
        else Parse.fail (.expected kind.display) : Parse Token)
        (if s.current.kind = .eof then Parse.fail .endOfFile
          else Parse.fail (.expected kind.display)) s := by
      split <;> exact fail
    exact hfail.bind fun a t _ hlt => absurd hlt (Nat.not_lt_zero _)

theorem ident {f f' : Ident → Parse β} (hs : s.Closed)
    (h : ∀ a t, t.Closed → t.rest.length < s.rest.length → Agree n (f a) (f' a) t) :
    Agree n (ident >>= f) (ident >>= f') s := by
  rw [Parse.ident, bind_assoc, bind_assoc]
  exact expect hs nofun fun t => h ⟨t.text, t.pos⟩

end Agree

/-! ## Names and types -/

theorem agree_pathRest : ∀ (fuel fuel' : Nat) {done : List String} {s : TokenStream}, s.Closed →
    s.rest.length < fuel → s.rest.length < fuel' →
    Agree (s.rest.length + 1) (pathRest fuel done) (pathRest fuel' done) s
  | 0, _, _, _, _, h, _ | _, 0, _, _, _, _, h => absurd h (Nat.not_lt_zero _)
  | fuel + 1, fuel' + 1, done, s, hs, h, h' => by
      unfold pathRest
      apply Agree.get
      by_cases hdot : s.current.kind = .dot ∧ s.nextKind = .identifier
      · simp only [if_pos hdot]
        refine .advance hs fun t ht _ hlt => .expect ht nofun fun name j hj hlt' => ?_
        have hlt := hlt (hdot.1 ▸ nofun)
        exact (agree_pathRest fuel fuel' hj (by omega) (by omega)).mono (by omega)
      · simp only [if_neg hdot]
        exact .pure hs (Nat.lt_succ_self _)

theorem agree_dims : ∀ (fuel fuel' : Nat) {depth : Nat} {s : TokenStream}, s.Closed →
    s.rest.length < fuel → s.rest.length < fuel' →
    Agree (s.rest.length + 1) (dims fuel depth) (dims fuel' depth) s
  | 0, _, _, _, _, h, _ | _, 0, _, _, _, _, h => absurd h (Nat.not_lt_zero _)
  | fuel + 1, fuel' + 1, depth, s, hs, h, h' => by
      unfold dims
      apply Agree.get
      by_cases hopen : s.current.kind = .openBracket ∧ s.nextKind = .closeBracket
      · simp only [if_pos hopen]
        refine .advance hs fun t ht _ hlt => .advance ht fun j hj hle _ => ?_
        have hlt := hlt (hopen.1 ▸ nofun)
        split
        · exact .fail
        · exact (agree_dims fuel fuel' hj (by omega) (by omega)).mono (by omega)
      · simp only [if_neg hopen]
        exact .pure hs (Nat.lt_succ_self _)

theorem agree_typeName {fuel fuel' : Nat} (hs : s.Closed) (h : s.rest.length < fuel)
    (h' : s.rest.length < fuel') :
    Agree (s.rest.length + 1) (typeName fuel) (typeName fuel') s := by
  unfold typeName
  apply Agree.peek
  split
  · exact .advance hs fun t ht hle _ => .pure ht (Nat.lt_succ_of_le hle)
  · split
    · simp only [path, bind_assoc]
      refine .expect hs nofun fun name t ht hlt => ?_
      refine (agree_pathRest fuel fuel' ht (by omega) (by omega)).bind fun segments j hj hlt' => ?_
      exact .pure hj (by omega)
    · exact .fail

/-! ## Expressions -/

/-- A binary operator is not the mark of the end. -/
theorem ne_eof_of_binaryOp? {op : BinaryOp} (h : binaryOp? kind = some op) : kind ≠ .eof := by
  rintro rfl
  cases h

theorem ne_eof_of_unaryOp? {op : UnaryOp} (h : unaryOp? kind = some op) : kind ≠ .eof := by
  rintro rfl
  cases h

theorem ne_eof_of_literal? {t : Token} {value : Literal} (h : literal? t = some value) :
    t.kind ≠ .eof := by
  intro hkind
  rw [literal?, hkind] at h
  cases h

mutual

theorem agree_expr : ∀ (fuel fuel' : Nat) {s : TokenStream}, s.Closed →
    5 * s.rest.length + 5 ≤ fuel → 5 * s.rest.length + 5 ≤ fuel' →
    Agree s.rest.length (expr fuel) (expr fuel') s
  | 0, _, _, _, h, _ | _, 0, _, _, _, h => absurd h (Nat.not_succ_le_zero _)
  | fuel + 1, fuel' + 1, s, hs, h, h' => by
      unfold expr
      refine (agree_binary fuel fuel' hs (by omega) (by omega)).bind fun target t ht hlt => ?_
      refine .accept ht nofun (fun j hj hlt' => ?_) (.pure ht hlt)
      refine (agree_expr fuel fuel' hj (by omega) (by omega)).bind fun value i hi hlt'' => ?_
      exact .pure hi (by omega)

theorem agree_binary : ∀ (fuel fuel' : Nat) {level : Nat} {s : TokenStream}, s.Closed →
    5 * s.rest.length + 4 ≤ fuel → 5 * s.rest.length + 4 ≤ fuel' →
    Agree s.rest.length (binary fuel level) (binary fuel' level) s
  | 0, _, _, _, _, h, _ | _, 0, _, _, _, _, h => absurd h (Nat.not_succ_le_zero _)
  | fuel + 1, fuel' + 1, level, s, hs, h, h' => by
      unfold binary
      refine (agree_unary fuel fuel' hs (by omega) (by omega)).bind fun lhs t ht hlt => ?_
      exact (agree_binaryRest fuel fuel' ht (by omega) (by omega)).mono hlt

theorem agree_binaryRest : ∀ (fuel fuel' : Nat) {level : Nat} {lhs : Expr} {s : TokenStream},
    s.Closed → 5 * s.rest.length + 1 ≤ fuel → 5 * s.rest.length + 1 ≤ fuel' →
    Agree (s.rest.length + 1) (binaryRest fuel level lhs) (binaryRest fuel' level lhs) s
  | 0, _, _, _, _, _, h, _ | _, 0, _, _, _, _, _, h => absurd h (Nat.not_succ_le_zero _)
  | fuel + 1, fuel' + 1, level, lhs, s, hs, h, h' => by
      unfold binaryRest
      apply Agree.peek
      split
      · exact .pure hs (Nat.lt_succ_self _)
      · next op hop =>
          split
          · exact .pure hs (Nat.lt_succ_self _)
          · refine .advance hs fun t ht _ hlt => ?_
            have hlt := hlt (ne_eof_of_binaryOp? hop)
            refine (agree_binary fuel fuel' ht (by omega) (by omega)).bind fun rhs j hj hlt' => ?_
            exact (agree_binaryRest fuel fuel' hj (by omega) (by omega)).mono (by omega)

theorem agree_unary : ∀ (fuel fuel' : Nat) {s : TokenStream}, s.Closed →
    5 * s.rest.length + 3 ≤ fuel → 5 * s.rest.length + 3 ≤ fuel' →
    Agree s.rest.length (unary fuel) (unary fuel') s
  | 0, _, _, _, h, _ | _, 0, _, _, _, h => absurd h (Nat.not_succ_le_zero _)
  | fuel + 1, fuel' + 1, s, hs, h, h' => by
      unfold unary
      apply Agree.peek
      split
      · next op hop =>
          refine .advance hs fun t ht _ hlt => ?_
          have hlt := hlt (ne_eof_of_unaryOp? hop)
          refine (agree_unary fuel fuel' ht (by omega) (by omega)).bind fun operand j hj hlt' => ?_
          exact .pure hj (by omega)
      · refine (agree_primary fuel fuel' hs (by omega) (by omega)).bind fun base t ht hlt => ?_
        exact (agree_selectors fuel fuel' ht (by omega) (by omega)).mono hlt

theorem agree_selectors : ∀ (fuel fuel' : Nat) {base : Expr} {s : TokenStream}, s.Closed →
    5 * s.rest.length + 1 ≤ fuel → 5 * s.rest.length + 1 ≤ fuel' →
    Agree (s.rest.length + 1) (postfix_ fuel base) (postfix_ fuel' base) s
  | 0, _, _, _, _, h, _ | _, 0, _, _, _, _, h => absurd h (Nat.not_succ_le_zero _)
  | fuel + 1, fuel' + 1, base, s, hs, h, h' => by
      unfold postfix_
      refine .accept hs nofun (fun t ht hlt => ?_) ?_
      · refine .ident ht fun name j hj hlt' => .check ?_
        split
        · refine (agree_arguments fuel fuel' hj (by omega) (by omega)).bind
            fun args i hi hlt'' => ?_
          exact (agree_selectors fuel fuel' hi (by omega) (by omega)).mono (by omega)
        · exact (agree_selectors fuel fuel' hj (by omega) (by omega)).mono (by omega)
      · refine .accept hs nofun (fun t ht hlt => ?_) (.pure hs (Nat.lt_succ_self _))
        refine (agree_expr fuel fuel' ht (by omega) (by omega)).bind fun i j hj hlt' => ?_
        refine .expect hj nofun fun _ k hk hlt'' => ?_
        exact (agree_selectors fuel fuel' hk (by omega) (by omega)).mono (by omega)

theorem agree_primary : ∀ (fuel fuel' : Nat) {s : TokenStream}, s.Closed →
    5 * s.rest.length + 2 ≤ fuel → 5 * s.rest.length + 2 ≤ fuel' →
    Agree s.rest.length (primary fuel) (primary fuel') s
  | 0, _, _, _, h, _ | _, 0, _, _, _, h => absurd h (Nat.not_succ_le_zero _)
  | fuel + 1, fuel' + 1, s, hs, h, h' => by
      unfold primary
      apply Agree.peek
      split
      · next value hvalue =>
          exact .advance hs fun t ht _ hlt => .pure ht (hlt (ne_eof_of_literal? hvalue))
      · split
        · next hkind => exact .advance hs fun t ht _ hlt => .pure ht (hlt (hkind ▸ nofun))
        · next hkind =>
            refine .advance hs fun t ht _ hlt => .check ?_
            have hlt := hlt (hkind ▸ nofun)
            split
            · refine (agree_arguments fuel fuel' ht (by omega) (by omega)).bind
                fun args j hj hlt' => ?_
              exact .pure hj (by omega)
            · exact .pure ht hlt
        · exact agree_parenthesised fuel fuel' hs (by omega) (by omega)
        · exact agree_creation fuel fuel' hs (by omega) (by omega)
        · exact .fail
        · exact .fail

theorem agree_parenthesised : ∀ (fuel fuel' : Nat) {s : TokenStream}, s.Closed →
    5 * s.rest.length + 1 ≤ fuel → 5 * s.rest.length + 1 ≤ fuel' →
    Agree s.rest.length (parenthesised fuel) (parenthesised fuel') s
  | 0, _, _, _, h, _ | _, 0, _, _, _, h => absurd h (Nat.not_succ_le_zero _)
  | fuel + 1, fuel' + 1, s, hs, h, h' => by
      unfold parenthesised
      refine .expect hs nofun fun _ t ht hlt => ?_
      refine (agree_expr fuel fuel' ht (by omega) (by omega)).bind fun e j hj hlt' => ?_
      exact .expect hj nofun fun _ i hi hlt'' => .pure hi (by omega)

theorem agree_creation : ∀ (fuel fuel' : Nat) {s : TokenStream}, s.Closed →
    5 * s.rest.length + 1 ≤ fuel → 5 * s.rest.length + 1 ≤ fuel' →
    Agree s.rest.length (creation fuel) (creation fuel') s
  | 0, _, _, _, h, _ | _, 0, _, _, _, h => absurd h (Nat.not_succ_le_zero _)
  | fuel + 1, fuel' + 1, s, hs, h, h' => by
      unfold creation
      refine .expect hs nofun fun _ t ht hlt => .peek (.check ?_)
      split
      · exact .fail
      · refine (agree_typeName ht (by omega) (by omega)).bind fun base j hj hlt' => ?_
        refine .accept hj nofun (fun i hi hlt'' => ?_) ?_
        · refine (agree_expr fuel fuel' hi (by omega) (by omega)).bind fun length k hk hltk => ?_
          refine .expect hk nofun fun _ l hl hltl => ?_
          refine (agree_dims fuel fuel' hl (by omega) (by omega)).bind fun n q hq hltq => ?_
          exact .pure hq (by omega)
        · cases base with
          | named path =>
              refine (agree_arguments fuel fuel' hj (by omega) (by omega)).bind
                fun args i hi hlt'' => ?_
              exact .pure hi (by omega)
          | _ => exact .fail

theorem agree_arguments : ∀ (fuel fuel' : Nat) {s : TokenStream}, s.Closed →
    5 * s.rest.length + 2 ≤ fuel → 5 * s.rest.length + 2 ≤ fuel' →
    Agree s.rest.length (arguments fuel) (arguments fuel') s
  | 0, _, _, _, h, _ | _, 0, _, _, _, h => absurd h (Nat.not_succ_le_zero _)
  | fuel + 1, fuel' + 1, s, hs, h, h' => by
      unfold arguments
      refine .expect hs nofun fun _ t ht hlt => ?_
      exact (agree_argumentsRest fuel fuel' ht (by omega) (by omega)).mono hlt

theorem agree_argumentsRest : ∀ (fuel fuel' : Nat) {done : List Expr} {s : TokenStream}, s.Closed →
    5 * s.rest.length + 6 ≤ fuel → 5 * s.rest.length + 6 ≤ fuel' →
    Agree (s.rest.length + 1) (argumentsRest fuel done) (argumentsRest fuel' done) s
  | 0, _, _, _, _, h, _ | _, 0, _, _, _, _, h => absurd h (Nat.not_succ_le_zero _)
  | fuel + 1, fuel' + 1, done, s, hs, h, h' => by
      unfold argumentsRest
      refine .accept hs nofun (fun t ht hlt => .pure ht (by omega)) ?_
      refine (agree_expr fuel fuel' hs (by omega) (by omega)).bind fun arg t ht hlt => .check ?_
      split
      · refine .expect ht nofun fun _ j hj hlt' => ?_
        exact (agree_argumentsRest fuel fuel' hj (by omega) (by omega)).mono (by omega)
      · exact (agree_argumentsRest fuel fuel' ht (by omega) (by omega)).mono (by omega)

end

/-! ## Answers that hang on no fuel -/

/-- Whether a reader, given any fuel that is enough, answers so and goes on at `t`. -/
def Gives (r : Nat → Parse α) (s : TokenStream) (a : α) (t : TokenStream) : Prop :=
  ∀ fuel, s.enough ≤ fuel → (r fuel).run s = .ok (a, t)

namespace Gives

variable {t : TokenStream} {e : Expr} {fuel level : Nat}

/-- One run is all that there is to see of a reader that hangs on no fuel. -/
theorem unary_of_run (fuel : Nat) (hs : s.Closed) (hfuel : 5 * s.rest.length + 3 ≤ fuel)
    (hrun : (unary fuel).run s = .ok (e, t)) : Gives unary s e t := by
  intro fuel' hfuel'
  unfold TokenStream.enough at hfuel'
  rw [← (agree_unary fuel fuel' hs hfuel (by omega)).run_eq]
  exact hrun

/-- An operand is read with less fuel than an expression. -/
theorem run_unary (h : Gives unary s e t) (hs : s.Closed)
    (hfuel : 5 * s.rest.length + 3 ≤ fuel) : (unary fuel).run s = .ok (e, t) := by
  rw [(agree_unary fuel s.enough hs hfuel (by unfold TokenStream.enough; omega)).run_eq]
  exact h s.enough (Nat.le_refl _)

/-- Behind an operand fewer tokens are left. -/
theorem leaves (h : Gives unary s e t) (hs : s.Closed) :
    t.Closed ∧ t.rest.length < s.rest.length :=
  (agree_unary _ _ hs (Nat.le_refl _) (Nat.le_refl _)).leaves e t
    (h.run_unary hs (Nat.le_refl _))

end Gives

end Parse

end ProbeLang
