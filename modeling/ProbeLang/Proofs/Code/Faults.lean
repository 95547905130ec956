import ProbeLang.Proofs.Artifact.Faults
import ProbeLang.Proofs.Artifact.Limits
import ProbeLang.Proofs.Code.Artifacts

/-!
# The faults of code generation

Whatever an expression or a statement is, making its code fails at limits of the format only: when
there is no index left for a constant, or no slot. So a declared class whose symbol is known becomes
an artifact unless it, or a class in it, exceeds one of these limits (`DeclaredClass.Exceeds`).
-/

namespace ProbeLang

variable {ρ α β : Type}

/-- Whether a step with a state fails at limits of the format only. -/
def LimitedIn (m : StateT ρ (Except ArtifactFault) α) : Prop :=
  ∀ s, Limited (m.run s)

namespace LimitedIn

variable {m : StateT ρ (Except ArtifactFault) α} {f : α → StateT ρ (Except ArtifactFault) β}

theorem pure (a : α) : LimitedIn (Pure.pure a : StateT ρ (Except ArtifactFault) α) :=
  fun s => .ok (a, s)

theorem throw {fault : ArtifactFault} (h : fault.isLimit = true) :
    LimitedIn (MonadExcept.throw fault : StateT ρ (Except ArtifactFault) α) :=
  fun _ => .error h

theorem bind (hm : LimitedIn m) (hf : ∀ a, LimitedIn (f a)) : LimitedIn (m >>= f) :=
  fun s => (hm s).bind fun (a, t) => hf a t

theorem map {g : α → β} (hm : LimitedIn m) : LimitedIn (m >>= fun a => Pure.pure (g a)) :=
  hm.bind fun a => .pure (g a)

theorem get : LimitedIn (MonadState.get : StateT ρ (Except ArtifactFault) ρ) :=
  fun s => .ok (s, s)

theorem set (s : ρ) : LimitedIn (MonadStateOf.set s : StateT ρ (Except ArtifactFault) PUnit) :=
  fun _ => .ok _

theorem modify (g : ρ → ρ) : LimitedIn (modify g : StateT ρ (Except ArtifactFault) PUnit) :=
  fun _ => .ok _

/-- A step that fails as one without a state does. -/
theorem lift {r : Except ArtifactFault α} (h : Limited r) :
    LimitedIn (MonadLift.monadLift r : StateT ρ (Except ArtifactFault) α) :=
  fun _ => h.map

theorem mapM {f : α → StateT ρ (Except ArtifactFault) β} : ∀ (as : List α),
    (∀ a ∈ as, LimitedIn (f a)) → LimitedIn (as.mapM f)
  | [], _ => .pure _
  | a :: rest, h => by
      rw [List.mapM_cons]
      refine (h a List.mem_cons_self).bind fun _ => ?_
      exact (mapM rest fun a ha => h a (List.mem_cons_of_mem _ ha)).map

end LimitedIn

namespace CodeM

/-! ## Constants, slots and lines -/

theorem limited_constant (text : String) : LimitedIn (constant text) :=
  .bind .get fun state => .bind (.lift (state.pool.limited_intern text)) fun _ => .bind (.set _)
    fun _ => .pure _

theorem limited_pooled (instr : UInt16 → Instr UInt16) (text : String) :
    LimitedIn (pooled instr text) :=
  (limited_constant text).map

theorem limited_freshSlot : LimitedIn freshSlot := by
  refine .bind .get fun state => ?_
  split
  · exact .bind (.set _) fun _ => .pure _
  · exact .throw rfl

theorem limited_reserve (n : Nat) : LimitedIn (reserve n) := by
  refine .bind .get fun state => ?_
  dsimp only
  split
  · exact .set _
  · exact .throw rfl

theorem limited_line (debug : DebugInfo) (pc : Nat) (pos : Pos) :
    LimitedIn (line debug pc pos) := by
  unfold line
  split
  · exact .modify _
  · exact .pure ()

/-! ## Expressions -/

theorem limited_literal (v : Literal) : LimitedIn (literal v) := by
  cases v with
  | string text => exact limited_pooled _ text
  | int n | bool b | char c | long n | null => exact .pure _

theorem limited_create (cls : String) : LimitedIn (create cls) :=
  (limited_pooled _ cls).bind fun _ => (limited_pooled _ _).map

theorem limited_keepField (isStatic : Bool) (reference : String) (value : Code) :
    LimitedIn (keepField isStatic reference value) := by
  unfold keepField
  split
  · exact (limited_pooled _ reference).map
  · exact (limited_pooled _ reference).map

mutual

theorem limited_expr : ∀ (e : Expr) (pc : Nat), LimitedIn (expr pc e)
  | .literal _ v, pc => limited_literal v
  | .name n ident, pc => by
      simp only [expr]
      split
      · exact .pure _
      · exact limited_pooled _ _
      · exact (limited_pooled _ _).map
      · exact .pure _
  | .this _, pc => .pure _
  | .field n target member, pc => by
      simp only [expr]
      split
      · exact limited_pooled _ _
      · exact (limited_expr target pc).bind fun _ => (limited_pooled _ _).map
      · split
        · exact (limited_expr target pc).map
        · exact .pure _
  | .call n callee args, pc => by
      simp only [expr]
      split
      · exact (limited_exprs args pc).bind fun _ => (limited_pooled _ _).map
      · exact (limited_exprs args _).bind fun _ => (limited_pooled _ _).map
      · exact .pure _
  | .invoke n target callee args, pc => by
      simp only [expr]
      split
      · exact (limited_exprs args pc).bind fun _ => (limited_pooled _ _).map
      · refine (limited_expr target pc).bind fun _ => ?_
        exact (limited_exprs args _).bind fun _ => (limited_pooled _ _).map
      · exact .pure _
  | .new n type args, pc => by
      simp only [expr]
      split
      · exact limited_create _
      · exact .pure _
  | .newArray n elem length, pc => by
      simp only [expr]
      exact (limited_expr length pc).bind fun _ => (limited_pooled _ _).map
  | .index _ target i, pc => by
      simp only [expr]
      exact (limited_expr target pc).bind fun _ => (limited_expr i _).map
  | .unary _ op operand, pc => by
      simp only [expr]
      exact (limited_expr operand pc).map
  | .binary n op lhs rhs, pc => by
      simp only [expr]
      refine (limited_expr lhs pc).bind fun _ => ?_
      split
      · exact (limited_expr rhs _).map
      · exact (limited_expr rhs _).map
  | .assign n target value, pc => by
      have hvalue := limited_expr value
      cases target with
      | name m ident =>
          simp only [expr]
          split
          · exact (hvalue pc).map
          · exact (hvalue _).bind fun _ => (limited_keepField _ _ _).map
          · exact hvalue pc
      | field m of member =>
          simp only [expr]
          split
          · exact (hvalue pc).map
          · exact (hvalue pc).bind fun _ => limited_keepField _ _ _
          · refine (limited_expr of pc).bind fun _ => ?_
            exact (hvalue _).bind fun _ => (limited_keepField _ _ _).map
          · exact hvalue pc
      | index m of i =>
          simp only [expr]
          split
          · exact (hvalue pc).map
          · refine (limited_expr of pc).bind fun _ => (limited_expr i _).bind fun _ => ?_
            exact (hvalue _).map
      | literal m _ | this m | call m _ _ | invoke m _ _ _ | new m _ _ | newArray m _ _
      | unary m _ _ | binary m _ _ _ | assign m _ _ =>
          simp only [expr]
          split
          · exact (hvalue pc).map
          · exact hvalue pc

theorem limited_exprs : ∀ (es : List Expr) (pc : Nat), LimitedIn (exprs pc es)
  | [], _ => .pure _
  | e :: rest, pc => by
      simp only [exprs]
      exact (limited_expr e pc).bind fun _ => (limited_exprs rest _).map

end

theorem limited_discarded (e : Expr) (pc : Nat) : LimitedIn (discarded pc e) :=
  (limited_expr e pc).map

theorem limited_discarded? (e : Option Expr) (pc : Nat) : LimitedIn (discarded? pc e) := by
  cases e with
  | none => exact .pure _
  | some e => exact limited_discarded e pc

/-! ## Statements -/

theorem limited_localVar (d : LocalVar) (pc : Nat) : LimitedIn (localVar pc d) := by
  unfold localVar
  split
  · exact (limited_expr _ pc).map
  · exact .pure _

theorem limited_forInit (debug : DebugInfo) (init : ForInit) (pc : Nat) :
    LimitedIn (forInit debug pc init) := by
  cases init with
  | none => exact .pure _
  | declare d => exact (limited_line debug pc d.pos).bind fun _ => limited_localVar d pc
  | expr pos e => exact (limited_line debug pc pos).bind fun _ => limited_discarded e pc

mutual

theorem limited_stmt (debug : DebugInfo) : ∀ (st : Stmt) (pc : Nat),
    LimitedIn (stmt debug pc st)
  | .block pos body, pc => by
      simp only [stmt]
      exact (limited_line debug pc pos).bind fun _ => limited_stmts debug body pc []
  | .declare d, pc => by
      simp only [stmt]
      exact (limited_line debug pc d.pos).bind fun _ => limited_localVar d pc
  | .ifThen pos cond st, pc => by
      simp only [stmt]
      refine (limited_line debug pc pos).bind fun _ => (limited_expr cond pc).bind fun _ => ?_
      exact (limited_stmt debug st _).map
  | .ifElse pos cond st other, pc => by
      simp only [stmt]
      refine (limited_line debug pc pos).bind fun _ => (limited_expr cond pc).bind fun _ => ?_
      exact (limited_stmt debug st _).bind fun _ => (limited_stmt debug other _).map
  | .whileLoop pos cond body, pc => by
      simp only [stmt]
      refine (limited_line debug pc pos).bind fun _ => (limited_expr cond pc).bind fun _ => ?_
      exact (limited_stmt debug body _).map
  | .forLoop pos init cond update body, pc => by
      simp only [stmt]
      refine (limited_line debug pc pos).bind fun _ => ?_
      refine (limited_forInit debug init pc).bind fun _ => ?_
      cases cond with
      | none => exact (limited_stmt debug body _).bind fun _ => (limited_discarded? update _).map
      | some cond =>
          refine (limited_expr cond _).bind fun _ => ?_
          exact (limited_stmt debug body _).bind fun _ => (limited_discarded? update _).map
  | .ret pos value, pc => by
      simp only [stmt]
      refine (limited_line debug pc pos).bind fun _ => ?_
      cases value with
      | none => exact .pure _
      | some e => exact (limited_expr e pc).map
  | .throw pos e, pc => by
      simp only [stmt]
      exact (limited_line debug pc pos).bind fun _ => (limited_expr e pc).map
  | .synchronized pos lock bodyPos body, pc => by
      simp only [stmt]
      refine (limited_line debug pc pos).bind fun _ => limited_freshSlot.bind fun _ => ?_
      exact (limited_expr lock pc).bind fun _ => (limited_stmts debug body _ []).map
  | .expr pos e, pc => by
      simp only [stmt]
      exact (limited_line debug pc pos).bind fun _ => limited_discarded e pc
  | .empty pos, pc => by
      simp only [stmt]
      exact (limited_line debug pc pos).bind fun _ => .pure _

theorem limited_stmts (debug : DebugInfo) : ∀ (sts : List Stmt) (pc : Nat) (done : List Code),
    LimitedIn (stmts debug pc done sts)
  | [], _, _ => .pure _
  | st :: rest, pc, _ => by
      simp only [stmts]
      exact (limited_stmt debug st pc).bind fun _ => limited_stmts debug rest _ _

end

/-! ## Methods -/

theorem limited_method {flags : UInt16} {name descriptor : String} {isStatic : Bool}
    {make : CodeM Code} (h : LimitedIn make) :
    LimitedIn (method flags name descriptor isStatic make) := by
  refine .bind .get fun pool => .bind (.lift (h _)) fun (_, state) => ?_
  exact .bind (.set _) fun _ => .pure _

theorem limited_body (debug : DebugInfo) (sig : MethodSig) (m : MethodDecl) :
    LimitedIn (body debug sig m) := by
  refine (limited_reserve _).bind fun _ => (limited_reserve _).bind fun _ => ?_
  exact (limited_stmts debug m.body.body 0 []).map

theorem limited_fieldValues (debug : DebugInfo) (cls : String) (isStatic : Bool) :
    ∀ (fields : List (FieldDecl × FieldSig)) (pc : Nat) (done : List Code),
      LimitedIn (fieldValues debug cls isStatic pc done fields)
  | [], _, _ => .pure _
  | (f, sig) :: rest, pc, done => by
      have hrest := limited_fieldValues debug cls isStatic rest
      simp only [fieldValues]
      split
      · exact hrest pc done
      · split
        · refine (limited_line debug pc f.pos).bind fun _ => (limited_expr _ _).bind fun _ => ?_
          exact (limited_pooled _ _).bind fun _ => hrest _ _
        · exact hrest pc done

theorem limited_instanceInit (debug : DebugInfo) (cls superclass : String)
    (fields : List (FieldDecl × FieldSig)) :
    LimitedIn (instanceInit debug cls superclass fields) :=
  (limited_pooled _ _).bind fun _ => (limited_fieldValues debug cls false fields _ []).map

theorem limited_classInit (debug : DebugInfo) (cls : String)
    (fields : List (FieldDecl × FieldSig)) : LimitedIn (classInit debug cls fields) :=
  (limited_fieldValues debug cls true fields 0 []).map

end CodeM

/-! ## Classes -/

theorem ClassDecl.limited_methodInfos (debug : DebugInfo) (c : ClassDecl) (symbol : ClassSymbol)
    (superclass : String) : LimitedIn (c.methodInfos debug symbol superclass) := by
  refine (CodeM.limited_method (CodeM.limited_instanceInit debug _ _ _)).bind fun _ => ?_
  refine (LimitedIn.mapM _ fun (m, sig) _ =>
    CodeM.limited_method (CodeM.limited_body debug sig m)).bind fun _ => ?_
  split
  · exact (CodeM.limited_method (CodeM.limited_classInit debug _ _)).map
  · exact .pure _

/-- Making the artifact of a class fails at limits of the format only. -/
theorem ClassDecl.limited_classFile (options : Options) (c : ClassDecl) (symbol : ClassSymbol) :
    Limited (c.classFile options symbol) :=
  (c.limited_methodInfos options.debug symbol _ .empty).bind fun (_, _) => .ok _

/-- Whether a declared class is too large for an artifact, and in which way. -/
def DeclaredClass.Exceeds (symbols : SymbolTable) (options : Options) (d : DeclaredClass)
    (fault : ArtifactFault) : Prop :=
  ∃ symbol, symbols.find? d.binary = some symbol ∧
    (d.decl.classFile options symbol >>= ClassFile.encode) = .error fault

theorem DeclaredClass.Exceeds.isLimit {symbols : SymbolTable} {options : Options}
    {d : DeclaredClass} {fault : ArtifactFault} (h : d.Exceeds symbols options fault) :
    fault.isLimit = true := by
  obtain ⟨symbol, -, h⟩ := h
  exact (d.decl.limited_classFile options symbol).bind ClassFile.limited_encode fault h

/-- If the code of a class that is too large can be made, something in the class cannot be
counted. -/
theorem DeclaredClass.Exceeds.not_countable {symbols : SymbolTable} {options : Options}
    {d : DeclaredClass} {fault : ArtifactFault} (h : d.Exceeds symbols options fault) :
    ∃ symbol, symbols.find? d.binary = some symbol ∧
      ∀ file, d.decl.classFile options symbol = .ok file → ¬ file.Countable := by
  obtain ⟨symbol, hfind, h⟩ := h
  refine ⟨symbol, hfind, fun file hfile hcountable => ?_⟩
  obtain ⟨bytes, hbytes⟩ :=
    (ClassFile.encode_ok_iff (ClassDecl.classFile_links hfile).1).mpr hcountable
  rw [hfile] at h
  cases hbytes.symm.trans h

/-- A declared class that has been made into an artifact is not too large. -/
theorem DeclaredClass.Makes.not_exceeds {symbols : SymbolTable} {options : Options}
    {d : DeclaredClass} {artifact : String × Bytes} (h : d.Makes symbols options artifact)
    (fault : ArtifactFault) : ¬ d.Exceeds symbols options fault := by
  obtain ⟨symbol, file, hfind, -, hfile, hencode⟩ := h.file
  rintro ⟨symbol', hfind', hexceeds⟩
  cases hfind.symm.trans hfind'
  rw [hfile] at hexceeds
  cases hencode.symm.trans hexceeds

section

variable {symbols : SymbolTable} {options : Options} {unit : Nat} {package : Option String}
  {fault : ArtifactFault}

mutual

/-- A class whose artifacts cannot be made is too large, or one that is declared in it is. -/
theorem ClassDecl.artifacts_exceed : ∀ (c : ClassDecl) {outer : Option String} {place : List Nat}
    {cls : String},
    (∀ d ∈ c.declared unit package outer place cls, symbols.has d.binary = true) →
    c.artifacts symbols options cls = .error fault →
      ∃ d ∈ c.declared unit package outer place cls, d.Exceeds symbols options fault
  | ⟨name, modifiers, superclass, members, pos⟩, outer, place, cls, hsymbols, h => by
      obtain ⟨hself, hmembers⟩ := List.forall_mem_cons.mp hsymbols
      obtain ⟨symbol, hfind⟩ := Table.has_eq_true.mp hself
      unfold ClassDecl.artifacts at h
      rw [show symbols.find? cls = some symbol from hfind] at h
      rcases except_bind_error h with hfile | ⟨file, hfile, h⟩
      · exact ⟨_, List.mem_cons_self, symbol, hfind, by rw [hfile]; rfl⟩
      · rcases except_bind_error h with hbytes | ⟨bytes, hbytes, h⟩
        · exact ⟨_, List.mem_cons_self, symbol, hfind, by rw [hfile]; exact hbytes⟩
        · rcases except_bind_error h with hnested | ⟨nested, hnested, h⟩
          · obtain ⟨d, hd, hexceeds⟩ := Member.artifacts_exceed members hmembers hnested
            exact ⟨d, List.mem_cons_of_mem _ hd, hexceeds⟩
          · cases h

theorem Member.artifacts_exceed : ∀ (members : List Member) {place : List Nat} {cls : String}
    {i : Nat} {names : List String},
    (∀ d ∈ Member.declared unit package place cls i members, symbols.has d.binary = true) →
    ClassDecl.memberArtifacts symbols options cls names members = .error fault →
      ∃ d ∈ Member.declared unit package place cls i members, d.Exceeds symbols options fault
  | [], _, _, _, _, _, h => by cases h
  | .field _ :: rest, _, _, _, _, hsymbols, h
  | .method _ :: rest, _, _, _, _, hsymbols, h => Member.artifacts_exceed rest hsymbols h
  | .type decl :: rest, _, cls, _, names, hsymbols, h => by
      obtain ⟨hdecl, hrest⟩ := List.forall_mem_append.mp hsymbols
      have hcases : decl.artifacts symbols options (cls ++ "$" ++ decl.name.name) = .error fault ∨
          ClassDecl.memberArtifacts symbols options cls names rest = .error fault := by
        unfold ClassDecl.memberArtifacts at h
        dsimp only at h
        split at h
        · rcases except_bind_error h with hhere | ⟨here, -, h⟩
          · exact .inl hhere
          · rcases except_bind_error h with hmore | ⟨more, -, h⟩
            · exact .inr hmore
            · cases h
        · exact .inr h
      rcases hcases with hhere | hmore
      · obtain ⟨d, hd, hexceeds⟩ := decl.artifacts_exceed hdecl hhere
        exact ⟨d, List.mem_append_left _ hd, hexceeds⟩
      · obtain ⟨d, hd, hexceeds⟩ := Member.artifacts_exceed rest hrest hmore
        exact ⟨d, List.mem_append_right _ hd, hexceeds⟩

end

end

end ProbeLang
