import ProbeLang.Proofs.Tree.ReadBack.Lists
import ProbeLang.Proofs.Tree.ReadBack.Types

/-!
# Reading expressions back

An expression is read back (`Expr.ReadBack`) if its tokens are legible and the reader of
expressions, given fuel in proportion to their number, takes them and answers with the expression
but for positions. A token costs four units of fuel, since it may be the first of an expression, of
an operand with its operators, of one with its unary operators and of one by itself. There is one
lemma for each kind of expression, which puts together what is known of its operands. Every
expression that has been read is read back (`Parse.rereads_expr`), by induction on the fuel along
the readers.
-/

namespace ProbeLang

open Bare

theorem Expr.printAll_eq_map (es : List Expr) : Expr.printAll es = es.map Expr.print := by
  induction es with
  | nil => rfl
  | cons e es ih => rw [Expr.printAll, ih, List.map_cons]

theorem Expr.placelessAll_eq_map (es : List Expr) :
    Expr.placelessAll es = es.map Expr.placeless := by
  induction es with
  | nil => rfl
  | cons e es ih => rw [Expr.placelessAll, ih, List.map_cons]

/-! ## How expressions begin -/

/-- The kinds of token that an expression begins with. -/
def Expr.heads : List Token.Kind :=
  [.identifier, .intLiteral, .longLiteral, .stringLiteral, .charLiteral, .kwTrue, .kwFalse, .kwNull,
    .kwThis, .openParen, .kwNew, .bang, .minus]

theorem Literal.kind_print (value : Literal) : value.print.kind ∈ Expr.heads := by
  cases value with
  | bool b => cases b <;> decide
  | int n | long n | char c | string s | null => simp [Literal.print, Expr.heads, sign]

/-- What an expression begins with. If that is an identifier, it stands alone or is called. -/
theorem Expr.head_print (e : Expr) : ∃ w ws, e.print = w :: ws ∧ w.kind ∈ Expr.heads ∧
    (w.kind = .identifier → ws = [] ∨ ∃ vs, ws = sign .openParen :: vs) := by
  cases e with
  | literal note value =>
      refine ⟨value.print, [], rfl, value.kind_print, fun _ => .inl rfl⟩
  | name note text => exact ⟨_, _, rfl, List.mem_cons_self, fun _ => .inl rfl⟩
  | call note callee args => exact ⟨_, _, rfl, List.mem_cons_self, fun _ => .inr ⟨_, rfl⟩⟩
  | unary note op operand => cases op <;> exact ⟨_, _, rfl, by decide, nofun⟩
  | this note => exact ⟨_, _, rfl, by decide, nofun⟩
  | new note type args => exact ⟨_, _, rfl, by decide, nofun⟩
  | newArray note elem length => exact ⟨_, _, rfl, by decide, nofun⟩
  | field note target member => exact ⟨_, _, rfl, by decide, nofun⟩
  | invoke note target callee args => exact ⟨_, _, rfl, by decide, nofun⟩
  | index note target i => exact ⟨_, _, rfl, by decide, nofun⟩
  | binary note op lhs rhs => exact ⟨_, _, rfl, by decide, nofun⟩
  | assign note target value => exact ⟨_, _, rfl, by decide, nofun⟩

theorem Expr.begins_print (e : Expr) : Parse.Begins Expr.heads e.print := by
  obtain ⟨w, ws, hprint, hkind, -⟩ := e.head_print
  exact ⟨w, ws, hprint, hkind⟩

theorem Bare.legible_enclosed {ws : List Bare} (h : ∀ w ∈ ws, w.Legible) :
    ∀ w ∈ enclosed ws, w.Legible :=
  List.forall_mem_cons.mpr ⟨legible_sign rfl,
    List.forall_mem_append.mpr ⟨h, List.forall_mem_singleton.mpr (legible_sign rfl)⟩⟩

theorem Bare.length_enclosed (ws : List Bare) : (enclosed ws).length = ws.length + 2 := by
  simp [enclosed]

/-! ## What it is to be read back -/

/-- Whether two expressions differ in positions alone. -/
abbrev Expr.Like (e e' : Expr) : Prop :=
  e'.placeless = e.placeless

/-- Whether an expression is an assignment. -/
def Expr.isAssign : Expr → Bool
  | .assign .. => true
  | _ => false

/-- Whether an expression is read back from the tokens it is printed as: by the reader of
expressions, and if it is no assignment by the reader of operands with their operators. -/
structure Expr.ReadBack (e : Expr) : Prop where
  legible : ∀ w ∈ e.print, w.Legible
  binary : e.isAssign = false → ∀ {fuel : Nat}, 4 * e.print.length ≤ fuel + 1 →
    Parse.Takes (Parse.binary fuel 0) e.print Parse.ends e.Like
  expr : ∀ {fuel : Nat}, 4 * e.print.length ≤ fuel →
    Parse.Takes (Parse.expr fuel) e.print Parse.ends e.Like

namespace Parse

variable {J K : Kinds} {w : Bare} {ws vs : List Bare} {fuel level : Nat} {pos : Pos}
  {e base lhs rhs : Expr} {P Q : Expr → Prop}

/-! ## From one reader to the next -/

/-- Whether a kind of token is no binary operator. -/
def notBinary : Kinds := fun kind => (binaryOp? kind).isNone

theorem takes_binaryRest_stop (hK : ∀ kind, K kind = true → notBinary kind = true)
    (hfuel : 0 < fuel) (hlhs : Q lhs) : Takes (binaryRest fuel level lhs) [] K Q := by
  obtain ⟨fuel, rfl⟩ : ∃ n, fuel = n + 1 := ⟨fuel - 1, by omega⟩
  rw [binaryRest]
  have hnone : Admits [] K notBinary := hK
  refine .peek_kind hnone fun t ht => ?_
  rw [Option.isNone_iff_eq_none.mp ht]
  exact .pure hlhs

theorem takes_binary (h : Takes (unary fuel) ws K Q)
    (hK : ∀ kind, K kind = true → notBinary kind = true) (hfuel : 0 < fuel) :
    Takes (binary (fuel + 1) level) ws K Q := by
  rw [binary]
  exact h.bind_last (fun _ h => h) fun lhs hlhs => takes_binaryRest_stop hK hfuel hlhs

theorem takes_expr (h : Takes (binary fuel 0) ws ends Q) : Takes (expr (fuel + 1)) ws ends Q := by
  rw [expr]
  exact h.bind_last (fun _ h => h) fun target htarget => .reject (ends_of rfl) (.pure htarget)

/-- Whether a kind of token does not go on with an operand. -/
def notPostfix : Kinds := fun kind => kind != .dot && kind != .openBracket

theorem takes_postfix_stop (hK : ∀ kind, K kind = true → notPostfix kind = true)
    (hfuel : 0 < fuel) (hbase : Q base) : Takes (postfix_ fuel base) [] K Q := by
  obtain ⟨fuel, rfl⟩ : ∃ n, fuel = n + 1 := ⟨fuel - 1, by omega⟩
  rw [postfix_]
  refine .reject (fun kind h => (Bool.and_eq_true _ _ ▸ hK kind h).1) ?_
  exact .reject (fun kind h => (Bool.and_eq_true _ _ ▸ hK kind h).2) (.pure hbase)

/-- What is no unary operator begins an operand that may go on. -/
theorem takes_unary (hw : unaryOp? w.kind = none) (h : Takes (primary fuel) (w :: ws) J P)
    (hJ : Admits vs K J) (hgoes : ∀ base, P base → Takes (postfix_ fuel base) vs K Q) :
    Takes (unary (fuel + 1)) (w :: ws ++ vs) K Q := by
  rw [unary]
  refine .peek fun t ht => ?_
  have hkind : unaryOp? t.kind = none := (congrArg (unaryOp? ·.kind) ht).trans hw
  rw [hkind]
  exact h.bind hJ hgoes

theorem takes_unary_last (hw : unaryOp? w.kind = none) (h : Takes (primary fuel) (w :: ws) K Q)
    (hK : ∀ kind, K kind = true → notPostfix kind = true) (hfuel : 0 < fuel) :
    Takes (unary (fuel + 1)) (w :: ws) K Q := by
  have hunary : Takes (unary (fuel + 1)) (w :: ws ++ []) K Q :=
    takes_unary hw h (fun _ h => h) fun base hbase => takes_postfix_stop hK hfuel hbase
  rwa [List.append_nil] at hunary

theorem takes_parenthesised (he : e.ReadBack) (hfuel : 4 * (enclosed e.print).length ≤ fuel + 4) :
    Takes (parenthesised fuel) (enclosed e.print) K e.Like := by
  rw [length_enclosed] at hfuel
  obtain ⟨fuel, rfl⟩ : ∃ n, fuel = n + 1 := ⟨fuel - 1, by omega⟩
  rw [parenthesised]
  refine .expect rfl fun _ _ => (he.expr (by omega)).bind rfl fun e' he' => ?_
  exact .expect rfl fun _ _ => .pure he'

/-- In parentheses any expression is an operand. -/
theorem takes_primary_enclosed (he : e.ReadBack)
    (hfuel : 4 * (enclosed e.print).length ≤ fuel + 3) :
    Takes (primary fuel) (enclosed e.print) K e.Like := by
  have hlength := length_enclosed e.print
  obtain ⟨fuel, rfl⟩ : ∃ n, fuel = n + 1 := ⟨fuel - 1, by omega⟩
  rw [primary]
  refine .peek fun t ht => ?_
  have hkind : t.kind = .openParen := congrArg Bare.kind ht
  have hliteral : literal? t = none := by rw [literal?, hkind]
  rw [hliteral, hkind]
  exact takes_parenthesised he (by omega)

theorem takes_unary_enclosed (he : e.ReadBack)
    (hfuel : 4 * (enclosed e.print).length ≤ fuel + 2) :
    Takes (unary fuel) (enclosed e.print) notPostfix e.Like := by
  have hlength := length_enclosed e.print
  obtain ⟨fuel, rfl⟩ : ∃ n, fuel = n + 1 := ⟨fuel - 1, by omega⟩
  exact takes_unary_last rfl (takes_primary_enclosed he (by omega)) (fun _ h => h) (by omega)

theorem takes_binary_enclosed (he : e.ReadBack)
    (hfuel : 4 * (enclosed e.print).length ≤ fuel + 1) :
    Takes (binary fuel level) (enclosed e.print) (fun kind => notPostfix kind && notBinary kind)
      e.Like := by
  have hlength := length_enclosed e.print
  obtain ⟨fuel, rfl⟩ : ∃ n, fuel = n + 1 := ⟨fuel - 1, by omega⟩
  refine takes_binary ?_ (fun kind h => (Bool.and_eq_true _ _ ▸ h).2) (by omega)
  exact (takes_unary_enclosed he (by omega)).mono (fun kind h => (Bool.and_eq_true _ _ ▸ h).1)
    fun _ h => h

theorem lists_arguments : Lists argumentsRest expr := by
  intro fuel done
  rw [argumentsRest]

theorem takes_arguments {args : List Expr} (hargs : ∀ e ∈ args, e.ReadBack)
    (hfuel : 4 * (listed (Expr.printAll args)).length ≤ fuel + 2) :
    Takes (arguments fuel) (sign .openParen :: listed (Expr.printAll args)) K
      fun args' => Expr.placelessAll args' = Expr.placelessAll args := by
  simp only [Expr.printAll_eq_map, Expr.placelessAll_eq_map] at hfuel ⊢
  obtain ⟨fuel, rfl⟩ : ∃ n, fuel = n + 1 := ⟨fuel - 1, by
    have hlength := length_listed (args.map Expr.print)
    omega⟩
  rw [arguments]
  refine .expect rfl fun _ _ => ?_
  exact takes_listed lists_arguments rfl (fun e _ => e.begins_print)
    (fun e he => (hargs e he).expr) hfuel

theorem legible_arguments {args : List Expr} (hargs : ∀ e ∈ args, e.ReadBack) :
    ∀ w ∈ sign .openParen :: listed (Expr.printAll args), w.Legible := by
  rw [Expr.printAll_eq_map]
  refine List.forall_mem_cons.mpr ⟨legible_sign rfl, legible_listed ?_⟩
  exact List.forall_mem_map.mpr fun e he => (hargs e he).legible

/-! ## Operands by themselves -/

/-- What is read back as an operand with its operators is read back. -/
theorem readBack_of_binary (hlegible : ∀ w ∈ e.print, w.Legible)
    (h : ∀ {fuel : Nat}, 4 * e.print.length ≤ fuel + 1 →
      Takes (binary fuel 0) e.print ends e.Like) : e.ReadBack := by
  refine ⟨hlegible, fun _ => h, fun {fuel} hfuel => ?_⟩
  have hlength := e.length_print_pos
  obtain ⟨fuel, rfl⟩ : ∃ n, fuel = n + 1 := ⟨fuel - 1, by omega⟩
  exact takes_expr (h (by omega))

theorem readBack_of_unary (hlegible : ∀ w ∈ e.print, w.Legible)
    (h : ∀ {fuel : Nat}, 4 * e.print.length ≤ fuel + 2 →
      Takes (unary fuel) e.print ends e.Like) : e.ReadBack := by
  refine readBack_of_binary hlegible fun {fuel} hfuel => ?_
  have hlength := e.length_print_pos
  obtain ⟨fuel, rfl⟩ : ∃ n, fuel = n + 1 := ⟨fuel - 1, by omega⟩
  exact takes_binary (h (by omega)) (ends_of rfl) (by omega)

/-- What is read back as an operand is read back. -/
theorem readBack_of_primary (hprint : e.print = w :: ws) (hw : unaryOp? w.kind = none)
    (hlegible : ∀ w ∈ e.print, w.Legible)
    (h : ∀ {fuel : Nat}, 4 * e.print.length ≤ fuel + 3 →
      Takes (primary fuel) e.print ends e.Like) : e.ReadBack := by
  refine readBack_of_unary hlegible fun {fuel} hfuel => ?_
  have hlength := e.length_print_pos
  obtain ⟨fuel, rfl⟩ : ∃ n, fuel = n + 1 := ⟨fuel - 1, by omega⟩
  have hprimary : Takes (primary fuel) e.print ends e.Like := h (by omega)
  rw [hprint] at hprimary ⊢
  exact takes_unary_last hw hprimary (ends_of rfl) (by omega)

/-- The token that a constant is printed as spells it. -/
theorem literal?_print {t : Token} {value : Literal} (ht : t.bare = value.print) :
    literal? t = some value := by
  have hkind : t.kind = value.print.kind := congrArg Bare.kind ht
  have htext : t.text = value.print.text := congrArg Bare.text ht
  rw [literal?, hkind, htext]
  cases value with
  | int n => exact congrArg (some ∘ Literal.int) (decimalValue_repr n)
  | long n => exact congrArg (some ∘ Literal.long) (decimalValue_repr n)
  | bool b => cases b <;> rfl
  | char c => simp [Literal.print, String.toList_singleton]
  | string s | null => rfl

theorem legible_literal {t : Token} {value : Literal} (ht : t.Worded)
    (hvalue : literal? t = some value) : value.print.Legible := by
  unfold literal? at hvalue
  split at hvalue
  · next hkind =>
      cases hvalue
      exact ⟨_, ht.int hkind, rfl⟩
  · next hkind =>
      cases hvalue
      exact ⟨_, ht.long hkind, rfl⟩
  · cases hvalue
    trivial
  · cases hvalue
    exact ⟨_, rfl⟩
  · cases hvalue
    exact legible_sign rfl
  · cases hvalue
    exact legible_sign rfl
  · cases hvalue
    exact legible_sign rfl
  · cases hvalue

theorem unaryOp?_literal (value : Literal) : unaryOp? value.print.kind = none := by
  cases value with
  | bool b => cases b <;> rfl
  | _ => rfl

theorem readBack_literal {t : Token} {value : Literal} (ht : t.Worded)
    (hvalue : literal? t = some value) : (Expr.literal ⟨pos, none, none⟩ value).ReadBack := by
  refine readBack_of_primary rfl (unaryOp?_literal value)
    (List.forall_mem_singleton.mpr (legible_literal ht hvalue)) fun {fuel} hfuel => ?_
  have hlength := Expr.length_print_pos (.literal ⟨pos, none, none⟩ value)
  obtain ⟨fuel, rfl⟩ : ∃ n, fuel = n + 1 := ⟨fuel - 1, by omega⟩
  rw [primary]
  refine .peek fun t ht => ?_
  rw [literal?_print ht]
  exact .advance fun _ _ => .pure rfl

theorem readBack_this : (Expr.this ⟨pos, none, none⟩).ReadBack := by
  refine readBack_of_primary rfl rfl (List.forall_mem_singleton.mpr (legible_sign rfl))
    fun {fuel} hfuel => ?_
  have hlength := Expr.length_print_pos (.this ⟨pos, none, none⟩)
  obtain ⟨fuel, rfl⟩ : ∃ n, fuel = n + 1 := ⟨fuel - 1, by omega⟩
  rw [primary]
  refine .peek fun t ht => ?_
  have hkind : t.kind = .kwThis := congrArg Bare.kind ht
  have hliteral : literal? t = none := by rw [literal?, hkind]
  rw [hliteral, hkind]
  exact .advance fun _ _ => .pure rfl

theorem readBack_name {name : String} (hname : Identifier name) :
    (Expr.name ⟨pos, none, none⟩ name).ReadBack := by
  refine readBack_of_primary rfl rfl (List.forall_mem_singleton.mpr (legible_ident hname))
    fun {fuel} hfuel => ?_
  have hlength := Expr.length_print_pos (.name ⟨pos, none, none⟩ name)
  obtain ⟨fuel, rfl⟩ : ∃ n, fuel = n + 1 := ⟨fuel - 1, by omega⟩
  rw [primary]
  refine .peek fun t ht => ?_
  have hkind : t.kind = .identifier := congrArg Bare.kind ht
  have htext : t.text = name := congrArg Bare.text ht
  have hliteral : literal? t = none := by rw [literal?, hkind]
  rw [hliteral, hkind]
  refine .advance fun _ _ => .check_false (ends_of rfl) (.pure ?_)
  rw [htext]
  rfl

theorem readBack_call {name : Ident} {args : List Expr} (hname : Identifier name.name)
    (hargs : ∀ e ∈ args, e.ReadBack) : (Expr.call ⟨pos, none, none⟩ name args).ReadBack := by
  refine readBack_of_primary rfl rfl ?_ fun {fuel} hfuel => ?_
  · exact List.forall_mem_cons.mpr ⟨legible_ident hname, legible_arguments hargs⟩
  simp only [Expr.print, List.length_cons] at hfuel
  obtain ⟨fuel, rfl⟩ : ∃ n, fuel = n + 1 := ⟨fuel - 1, by omega⟩
  rw [primary]
  refine .peek fun t ht => ?_
  have hkind : t.kind = .identifier := congrArg Bare.kind ht
  have htext : t.text = name.name := congrArg Bare.text ht
  have hliteral : literal? t = none := by rw [literal?, hkind]
  rw [hliteral, hkind]
  refine .advance fun _ _ => .check_true rfl ?_
  refine (takes_arguments hargs (by omega)).bind_last (fun _ h => h) fun args' hargs' => .pure ?_
  simp [Expr.Like, Expr.placeless, Note.placeless, Ident.placeless, htext, hargs']

/-- Behind `new` an object or an array is created. -/
theorem takes_creation (h : Takes (creation fuel) (sign .kwNew :: ws) K Q) :
    Takes (primary (fuel + 1)) (sign .kwNew :: ws) K Q := by
  rw [primary]
  refine .peek fun t ht => ?_
  have hkind : t.kind = .kwNew := congrArg Bare.kind ht
  have hliteral : literal? t = none := by rw [literal?, hkind]
  rw [hliteral, hkind]
  exact h

theorem readBack_new {path : Path} {type : TypeRef} {args : List Expr} (hbase : type.base.Readable)
    (htype : type.base = .named path) (hdims : type.dims = 0)
    (hargs : ∀ e ∈ args, e.ReadBack) : (Expr.new ⟨pos, none, none⟩ type args).ReadBack := by
  refine readBack_of_primary rfl rfl ?_ fun {fuel} hfuel => ?_
  · exact List.forall_mem_cons.mpr ⟨legible_sign rfl,
      List.forall_mem_append.mpr ⟨hbase.legible, legible_arguments hargs⟩⟩
  simp only [Expr.print, List.length_cons, List.length_append] at hfuel
  obtain ⟨fuel, rfl⟩ : ∃ n, fuel = n + 2 := ⟨fuel - 2, by omega⟩
  apply takes_creation
  rw [creation]
  refine .expect rfl fun t _ => .peek_any fun start => ?_
  have hvoid : type.base ≠ .void := by
    intro hvoid
    rw [htype] at hvoid
    cases hvoid
  refine takes_notVoid hbase hvoid (by omega) rfl fun base' hbase' => ?_
  refine .reject rfl ?_
  cases base' with
  | named path' =>
      refine (takes_arguments hargs (by omega)).bind_last (fun _ h => h) fun args' hargs' => ?_
      refine .pure ?_
      simp [Expr.Like, Expr.placeless, Note.placeless, TypeRef.placeless, hbase', hdims, hargs']
  | _ => rw [htype] at hbase'; cases hbase'

theorem readBack_newArray {elem : TypeRef} {length : Expr} (hbase : elem.base.Readable)
    (hvoid : elem.base ≠ .void) (hdims : elem.dims ≤ 255) (hlength : length.ReadBack) :
    (Expr.newArray ⟨pos, none, none⟩ elem length).ReadBack := by
  refine readBack_of_primary rfl rfl ?_ fun {fuel} hfuel => ?_
  · simp only [Expr.print, List.forall_mem_cons, List.forall_mem_append]
    exact ⟨legible_sign rfl, hbase.legible, legible_sign rfl, hlength.legible, legible_sign rfl,
      legible_printDims elem.dims⟩
  simp only [Expr.print, List.length_cons, List.length_append, length_printDims] at hfuel
  obtain ⟨fuel, rfl⟩ : ∃ n, fuel = n + 2 := ⟨fuel - 2, by omega⟩
  apply takes_creation
  rw [creation]
  refine .expect rfl fun t _ => .peek_any fun start => ?_
  refine takes_notVoid hbase hvoid (by omega) rfl fun base' hbase' => .accept rfl ?_
  refine (hlength.expr (by omega)).bind rfl fun length' hlength' => .expect rfl fun _ _ => ?_
  refine (takes_dims elem.dims (by omega) (by omega)).bind_last (ends_of rfl) ?_
  rintro n rfl
  refine .pure ?_
  simp [Expr.Like, Expr.placeless, Note.placeless, TypeRef.placeless, hbase', hlength']

/-! ## Operands that go on -/

/-- What goes on behind an operand in parentheses is read back. -/
theorem readBack_of_postfix (hbase : base.ReadBack) (hprint : e.print = enclosed base.print ++ ws)
    (hws : ∀ w ∈ ws, w.Legible)
    (h : ∀ {fuel : Nat} {base' : Expr}, base.Like base' → 4 * ws.length ≤ fuel →
      Takes (postfix_ fuel base') ws ends e.Like) : e.ReadBack := by
  refine readBack_of_unary ?_ fun {fuel} hfuel => ?_
  · rw [hprint]
    exact List.forall_mem_append.mpr ⟨legible_enclosed hbase.legible, hws⟩
  rw [hprint] at hfuel ⊢
  rw [List.length_append, length_enclosed] at hfuel
  obtain ⟨fuel, rfl⟩ : ∃ n, fuel = n + 1 := ⟨fuel - 1, by omega⟩
  have hprimary : Takes (primary fuel) (enclosed base.print) (fun _ => true) base.Like := by
    refine takes_primary_enclosed hbase ?_
    rw [length_enclosed]
    omega
  refine takes_unary rfl hprimary ?_ fun base' hbase' => h hbase' (by omega)
  cases ws with
  | nil => exact fun _ _ => rfl
  | cons w ws => rfl

theorem readBack_field {name : Ident} (hbase : base.ReadBack) (hname : Identifier name.name) :
    (Expr.field ⟨pos, none, none⟩ base name).ReadBack := by
  refine readBack_of_postfix hbase rfl ?_ fun {fuel base'} hbase' hfuel => ?_
  · exact List.forall_mem_cons.mpr
      ⟨legible_sign rfl, List.forall_mem_singleton.mpr (legible_ident hname)⟩
  simp only [List.length_cons] at hfuel
  obtain ⟨fuel, rfl⟩ : ∃ n, fuel = n + 1 := ⟨fuel - 1, by omega⟩
  rw [postfix_]
  refine .accept rfl (.ident fun p => .check_false (ends_of rfl) ?_)
  refine takes_postfix_stop (ends_of rfl) (by omega) ?_
  simp [Expr.Like, Expr.placeless, Note.placeless, Ident.placeless, hbase']

theorem readBack_invoke {name : Ident} {args : List Expr} (hbase : base.ReadBack)
    (hname : Identifier name.name) (hargs : ∀ e ∈ args, e.ReadBack) :
    (Expr.invoke ⟨pos, none, none⟩ base name args).ReadBack := by
  refine readBack_of_postfix hbase rfl ?_ fun {fuel base'} hbase' hfuel => ?_
  · exact List.forall_mem_cons.mpr ⟨legible_sign rfl,
      List.forall_mem_cons.mpr ⟨legible_ident hname, legible_arguments hargs⟩⟩
  simp only [List.length_cons] at hfuel
  obtain ⟨fuel, rfl⟩ : ∃ n, fuel = n + 1 := ⟨fuel - 1, by omega⟩
  rw [postfix_]
  refine .accept rfl (.ident fun p => .check_true rfl ?_)
  refine (takes_arguments hargs (by omega)).bind_last (fun _ h => h) fun args' hargs' => ?_
  refine takes_postfix_stop (ends_of rfl) (by omega) ?_
  simp [Expr.Like, Expr.placeless, Note.placeless, Ident.placeless, hbase', hargs']

theorem readBack_index {i : Expr} (hbase : base.ReadBack) (hi : i.ReadBack) :
    (Expr.index ⟨pos, none, none⟩ base i).ReadBack := by
  refine readBack_of_postfix hbase rfl ?_ fun {fuel base'} hbase' hfuel => ?_
  · exact List.forall_mem_cons.mpr ⟨legible_sign rfl,
      List.forall_mem_append.mpr ⟨hi.legible, List.forall_mem_singleton.mpr (legible_sign rfl)⟩⟩
  simp only [List.length_cons, List.length_append] at hfuel
  obtain ⟨fuel, rfl⟩ : ∃ n, fuel = n + 1 := ⟨fuel - 1, by omega⟩
  rw [postfix_]
  refine .reject rfl (.accept rfl ((hi.expr (by omega)).bind rfl fun i' hi' => ?_))
  refine .expect rfl fun _ _ => takes_postfix_stop (ends_of rfl) (by omega) ?_
  simp [Expr.Like, Expr.placeless, Note.placeless, hbase', hi']

/-! ## Operators -/

theorem readBack_unary {op : UnaryOp} (he : e.ReadBack) :
    (Expr.unary ⟨pos, none, none⟩ op e).ReadBack := by
  refine readBack_of_unary ?_ fun {fuel} hfuel => ?_
  · refine List.forall_mem_cons.mpr ⟨?_, legible_enclosed he.legible⟩
    cases op <;> exact legible_sign rfl
  have hlength := length_enclosed e.print
  simp only [Expr.print, List.length_cons] at hfuel
  obtain ⟨fuel, rfl⟩ : ∃ n, fuel = n + 1 := ⟨fuel - 1, by omega⟩
  rw [unary]
  refine .peek fun t ht => ?_
  have hkind : unaryOp? t.kind = some op := by
    rw [show t.kind = op.kind from congrArg Bare.kind ht]
    cases op <;> rfl
  rw [hkind]
  refine .advance fun _ _ => ?_
  refine (takes_unary_enclosed he (by omega)).bind_last (ends_of rfl) fun e' he' => .pure ?_
  simp [Expr.Like, Expr.placeless, Note.placeless, he']

theorem readBack_binary {op : BinaryOp} (hlhs : lhs.ReadBack) (hrhs : rhs.ReadBack) :
    (Expr.binary ⟨pos, none, none⟩ op lhs rhs).ReadBack := by
  refine readBack_of_binary ?_ fun {fuel} hfuel => ?_
  · refine List.forall_mem_append.mpr ⟨legible_enclosed hlhs.legible,
      List.forall_mem_cons.mpr ⟨?_, legible_enclosed hrhs.legible⟩⟩
    cases op <;> exact legible_sign rfl
  have hleft := length_enclosed lhs.print
  have hright := length_enclosed rhs.print
  simp only [Expr.print, List.length_cons, List.length_append] at hfuel
  obtain ⟨fuel, rfl⟩ : ∃ n, fuel = n + 2 := ⟨fuel - 2, by omega⟩
  rw [binary]
  have hop : notPostfix op.kind = true := by cases op <;> rfl
  refine (takes_unary_enclosed hlhs (by omega)).bind hop fun lhs' hlhs' => ?_
  rw [binaryRest]
  refine .peek fun t ht => ?_
  have hkind : binaryOp? t.kind = some op := by
    rw [show t.kind = op.kind from congrArg Bare.kind ht]
    cases op <;> rfl
  rw [hkind]
  dsimp only
  rw [if_neg (Nat.not_lt_zero _)]
  refine .advance fun _ _ => ?_
  refine (takes_binary_enclosed hrhs (by omega)).bind_last (ends_of rfl) fun rhs' hrhs' => ?_
  refine takes_binaryRest_stop (ends_of rfl) (by omega) ?_
  simp [Expr.Like, Expr.placeless, Note.placeless, hlhs', hrhs']

theorem readBack_assign {target value : Expr} (htarget : target.ReadBack)
    (hvalue : value.ReadBack) : (Expr.assign ⟨pos, none, none⟩ target value).ReadBack := by
  refine ⟨?_, nofun, fun {fuel} hfuel => ?_⟩
  · exact List.forall_mem_append.mpr ⟨legible_enclosed htarget.legible,
      List.forall_mem_cons.mpr ⟨legible_sign rfl, legible_enclosed hvalue.legible⟩⟩
  have hleft := length_enclosed target.print
  have hright := length_enclosed value.print
  simp only [Expr.print, List.length_cons, List.length_append] at hfuel
  obtain ⟨fuel, rfl⟩ : ∃ n, fuel = n + 2 := ⟨fuel - 2, by omega⟩
  rw [expr]
  refine (takes_binary_enclosed htarget (by omega)).bind rfl fun target' htarget' => .accept rfl ?_
  have hvalue : Takes (binary fuel 0) (enclosed value.print) ends value.Like :=
    (takes_binary_enclosed hvalue (by omega)).mono (ends_of rfl) fun _ h => h
  refine (takes_expr hvalue).bind_last (fun _ h => h) fun value' hvalue' => .pure ?_
  simp [Expr.Like, Expr.placeless, Note.placeless, htarget', hvalue']

/-! ## What has been read -/

mutual

/-- Every expression that has been read is read back. -/
theorem rereads_expr : ∀ fuel, Yields (expr fuel) Expr.ReadBack
  | 0 => .fail
  | fuel + 1 => by
      unfold expr
      refine (rereads_binary fuel 0).bind fun target htarget => .skip fun _ => ?_
      split
      · exact (rereads_expr fuel).bind fun value hvalue => .pure (readBack_assign htarget hvalue)
      · exact .pure htarget

theorem rereads_binary : ∀ fuel level, Yields (binary fuel level) Expr.ReadBack
  | 0, _ => .fail
  | fuel + 1, level =>
      (rereads_unary fuel).bind fun lhs hlhs => rereads_binaryRest fuel level lhs hlhs

theorem rereads_binaryRest : ∀ fuel level lhs, Expr.ReadBack lhs →
    Yields (binaryRest fuel level lhs) Expr.ReadBack
  | 0, _, _, _ => .fail
  | fuel + 1, level, lhs, hlhs => by
      unfold binaryRest
      refine .skip fun t => ?_
      split
      · exact .pure hlhs
      · split
        · exact .pure hlhs
        · refine .skip fun _ => (rereads_binary fuel _).bind fun rhs hrhs => ?_
          exact rereads_binaryRest fuel level _ (readBack_binary hlhs hrhs)

theorem rereads_unary : ∀ fuel, Yields (unary fuel) Expr.ReadBack
  | 0 => .fail
  | fuel + 1 => by
      unfold unary
      refine .skip fun t => ?_
      split
      · exact .skip fun _ => (rereads_unary fuel).bind fun operand h => .pure (readBack_unary h)
      · exact (rereads_primary fuel).bind fun base h => rereads_postfix fuel base h

theorem rereads_postfix : ∀ fuel base, Expr.ReadBack base →
    Yields (postfix_ fuel base) Expr.ReadBack
  | 0, _, _ => .fail
  | fuel + 1, base, hbase => by
      unfold postfix_
      refine .skip fun _ => ?_
      split
      · refine yields_ident.bind fun name hname => .skip fun _ => ?_
        split
        · exact (rereads_arguments fuel).bind fun args hargs =>
            rereads_postfix fuel _ (readBack_invoke hbase hname hargs)
        · exact rereads_postfix fuel _ (readBack_field hbase hname)
      · refine .skip fun _ => ?_
        split
        · exact (rereads_expr fuel).bind fun i hi => .skip fun _ =>
            rereads_postfix fuel _ (readBack_index hbase hi)
        · exact .pure hbase

theorem rereads_primary : ∀ fuel, Yields (primary fuel) Expr.ReadBack
  | 0 => .fail
  | fuel + 1 => by
      unfold primary
      refine yields_peek.bind fun t ht => ?_
      split
      · next value hvalue => exact .skip fun _ => .pure (readBack_literal ht hvalue)
      · split
        · exact .skip fun _ => .pure readBack_this
        · next hkind =>
            refine .skip fun _ => .skip fun _ => ?_
            split
            · exact (rereads_arguments fuel).bind fun args hargs =>
                .pure (readBack_call (ht.ident hkind) hargs)
            · exact .pure (readBack_name (ht.ident hkind))
        · exact rereads_parenthesised fuel
        · exact rereads_creation fuel
        · exact .fail
        · exact .fail

theorem rereads_parenthesised : ∀ fuel, Yields (parenthesised fuel) Expr.ReadBack
  | 0 => .fail
  | fuel + 1 => .skip fun _ => (rereads_expr fuel).bind fun _ h => .skip fun _ => .pure h

theorem rereads_creation : ∀ fuel, Yields (creation fuel) Expr.ReadBack
  | 0 => .fail
  | fuel + 1 => by
      unfold creation
      refine .skip fun t => .skip fun start =>
        yields_notVoid (yields_readableTypeName fuel) fun base hvoid hbase => .skip fun _ => ?_
      split
      · refine (rereads_expr fuel).bind fun length hlength => .skip fun _ =>
          (yields_dims (Nat.zero_le _)).bind fun n hn => .pure ?_
        exact readBack_newArray hbase hvoid hn hlength
      · split
        · exact (rereads_arguments fuel).bind fun args hargs =>
            .pure (readBack_new hbase rfl rfl hargs)
        · exact .fail

theorem rereads_arguments : ∀ fuel, Yields (arguments fuel) fun args => ∀ e ∈ args, e.ReadBack
  | 0 => .fail
  | fuel + 1 => .skip fun _ => rereads_argumentsRest fuel [] (List.forall_mem_nil _)

theorem rereads_argumentsRest : ∀ fuel (done : List Expr), (∀ e ∈ done, e.ReadBack) →
    Yields (argumentsRest fuel done) fun args => ∀ e ∈ args, e.ReadBack
  | 0, _, _ => .fail
  | fuel + 1, done, hdone => by
      unfold argumentsRest
      refine .skip fun _ => ?_
      split
      · exact .pure fun e he => hdone e (List.mem_reverse.mp he)
      · refine (rereads_expr fuel).bind fun arg harg => .skip fun _ => ?_
        have hcons := List.forall_mem_cons.mpr ⟨harg, hdone⟩
        split
        · exact .skip fun _ => rereads_argumentsRest fuel _ hcons
        · exact rereads_argumentsRest fuel _ hcons

end

end Parse

end ProbeLang
