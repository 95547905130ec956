import ProbeLang.Proofs.Tree.ReadBack.Decl

/-!
# Reading units back

A text that has been read gives a tree whose text is read as the same tree, but for positions
(`UnitTree.parse_render`), if the values of annotation arguments that are assignments stand in
parentheses. Without them it may not be read at all (`UnitTree.not_parse_render`).
-/

namespace ProbeLang

open Bare

/-! ## What it is to be read back -/

/-- Whether an import could have been read: a type that is imported has a package. -/
structure Import.Readable (i : Import) : Prop where
  path : i.path.Readable
  package : i.wildcard = false → 2 ≤ i.path.segments.length

/-- Whether a unit is read back. -/
structure UnitTree.ReadBack (u : UnitTree) : Prop where
  package : ∀ p ∈ u.package, p.Readable
  imports : ∀ i ∈ u.imports, i.Readable
  types : ∀ c ∈ u.types, c.ReadBack

theorem Import.begins_print (i : Import) : Parse.Begins [.kwImport] i.print :=
  ⟨_, _, rfl, List.mem_cons_self⟩

namespace Parse

variable {K : Kinds} {fuel : Nat}

/-! ## Imports -/

theorem legible_import {i : Import} (h : i.Readable) : ∀ w ∈ i.print, w.Legible := by
  refine List.forall_mem_cons.mpr ⟨legible_sign rfl, List.forall_mem_append.mpr ⟨h.path.legible,
    List.forall_mem_append.mpr ⟨?_, List.forall_mem_singleton.mpr (legible_sign rfl)⟩⟩⟩
  split
  · exact List.forall_mem_cons.mpr ⟨legible_sign rfl,
      List.forall_mem_singleton.mpr (legible_sign rfl)⟩
  · exact List.forall_mem_nil _

theorem takes_importRest (wildcard : Bool) : ∀ (rest : List String) {fuel : Nat}
    {done : List String}, rest.length < fuel →
    Takes (importRest fuel done) ((rest.flatMap fun s => [sign .dot, .ident s]) ++
      if wildcard then [sign .dot, sign .star] else []) (· == .semicolon)
      (· = (done.reverse ++ rest, wildcard))
  | [], fuel + 1, done, _ => by
      rw [importRest]
      cases wildcard with
      | true =>
          refine .accept rfl (.accept rfl (.pure ?_))
          rw [List.append_nil]
      | false =>
          refine .reject (fun kind hkind => ?_) (.pure ?_)
          · rw [eq_of_beq hkind]
            rfl
          · rw [List.append_nil]
  | name :: rest, fuel + 1, done, hfuel => by
      rw [importRest]
      refine .accept rfl (.reject rfl (.expect rfl fun t ht => ?_))
      have htext : t.text = name := congrArg Bare.text ht
      refine (takes_importRest wildcard rest (Nat.lt_of_succ_lt_succ hfuel)).mono
        (fun _ h => h) fun r h => ?_
      rw [h, htext, List.reverse_cons, List.append_assoc, List.singleton_append]

theorem takes_importDecl {i : Import} (h : i.Readable) (hfuel : 4 * i.print.length ≤ fuel) :
    Takes (importDecl fuel) (i.path.print ++
      ((if i.wildcard then [sign .dot, sign .star] else []) ++ [sign .semicolon])) K
      fun i' => i'.placeless = i.placeless := by
  obtain ⟨⟨segments, pos⟩, wildcard⟩ := i
  obtain ⟨first, rest, rfl⟩ := List.exists_cons_of_ne_nil h.path.segments
  have hlength : rest.length < fuel := by
    simp only [Import.print, Path.length_print, List.length_cons, List.length_append,
      List.tail_cons] at hfuel
    omega
  rw [← List.append_assoc]
  refine .expect rfl fun t ht => ?_
  refine (takes_importRest wildcard rest hlength).bind rfl ?_
  rintro _ rfl
  refine .expect rfl fun _ _ => ?_
  have htext : t.text = first := congrArg Bare.text ht
  have hpackage : ¬ (!wildcard && ([t.text].reverse ++ rest).length < 2) = true := by
    cases wildcard with
    | true => nofun
    | false =>
        have hlong : 2 ≤ ([t.text].reverse ++ rest).length := h.package rfl
        intro hshort
        exact Nat.not_lt.mpr hlong (of_decide_eq_true hshort)
  rw [if_neg hpackage]
  exact .pure (by simp [Import.placeless, Path.placeless, htext])

theorem takes_imports {is : List Import} (h : ∀ i ∈ is, i.Readable)
    (hfuel : 4 * (is.flatMap Import.print).length < fuel) :
    Takes (imports fuel []) (is.flatMap Import.print) (· != .kwImport)
      fun is' => is'.map Import.placeless = is.map Import.placeless := by
  have htail : Admits [] (· != .kwImport) fun _ => true := fun _ _ => rfl
  rw [← List.append_nil (is.flatMap Import.print)]
  refine takes_repeated htail rfl (fun {fuel done} => ?_) (fun i _ => i.begins_print)
    (fun i hi fuel done ws Q hfuel _ hrest => ?_) hfuel
  · rw [imports]
    exact .reject (fun _ h => h) (.pure rfl)
  · rw [imports]
    exact .accept rfl ((takes_importDecl (h i hi) hfuel).bind_any hrest)

/-! ## Classes -/

theorem takes_types {cs : List ClassDecl} (h : ∀ c ∈ cs, c.ReadBack)
    (hfuel : 4 * (cs.flatMap (ClassDecl.print Expr.printValue)).length < fuel) :
    Takes (types fuel []) (cs.flatMap (ClassDecl.print Expr.printValue)) (· == .eof)
      fun cs' => cs'.map ClassDecl.placeless = cs.map ClassDecl.placeless := by
  have htail : Admits [] (· == .eof) fun _ => true := fun _ _ => rfl
  rw [← List.append_nil (cs.flatMap _)]
  refine takes_repeated htail rfl (fun {fuel done} => ?_) (fun c _ => c.begins_print)
    (fun c hc fuel done ws Q hfuel _ hrest => ?_) hfuel
  · rw [types]
    exact .check_last (fun _ h => eq_of_beq h) (.pure rfl)
  · rw [types]
    refine .check_false (c.begins_print.append.admits rfl) ?_
    refine .reject (c.begins_print.append.admits rfl) ?_
    have hclass := h c hc
    have hlength : 0 < (c.printRest Expr.printValue).length := Nat.succ_pos _
    rw [c.print_eq, List.length_append] at hfuel
    rw [c.print_eq, List.append_assoc]
    refine (takes_modifiers hclass.modifiers (by omega)).bind rfl fun mods hmods => ?_
    exact (hclass.classDecl hmods (by omega)).bind_any hrest

/-! ## Units -/

theorem legible_unit {u : UnitTree} (h : u.ReadBack) :
    ∀ w ∈ u.print Expr.printValue, w.Legible := by
  refine List.forall_mem_append.mpr ⟨?_, List.forall_mem_append.mpr ⟨?_, ?_⟩⟩
  · cases hpackage : u.package with
    | none => exact List.forall_mem_nil _
    | some p =>
        refine List.forall_mem_cons.mpr ⟨legible_sign rfl, List.forall_mem_append.mpr
          ⟨(h.package p hpackage).legible, List.forall_mem_singleton.mpr (legible_sign rfl)⟩⟩
  · exact List.forall_mem_flatMap.mpr fun i hi => legible_import (h.imports i hi)
  · exact List.forall_mem_flatMap.mpr fun c hc => legible_member (m := .type c) (h.types c hc)

theorem takes_unit {u : UnitTree} (h : u.ReadBack)
    (hfuel : 4 * (u.print Expr.printValue).length < fuel) :
    Takes (unit fuel u.source) (u.print Expr.printValue) (· == .eof)
      fun u' => u'.placeless = u.placeless := by
  obtain ⟨source, package, is, cs⟩ := u
  have hpackage := h.package
  have himports := h.imports
  have htypes := h.types
  dsimp only at hpackage himports htypes
  simp only [UnitTree.print, List.length_append] at hfuel
  have hclasses {J : Kinds} (hJ : Member.heads.all J = true) (heof : J .eof = true) :
      Admits (cs.flatMap (ClassDecl.print Expr.printValue)) (· == .eof) J := by
    rw [← List.append_nil (cs.flatMap _)]
    refine admits_flatMap (fun c _ => c.begins_print) hJ fun kind hkind => ?_
    rw [eq_of_beq hkind]
    exact heof
  have hrest {package' : Option Path}
      (hlike : package'.map Path.placeless = package.map Path.placeless) :
      Takes (do
        let is ← imports fuel []
        let ts ← types fuel []
        return (⟨source, package', is, ts⟩ : UnitTree))
        (is.flatMap Import.print ++ cs.flatMap (ClassDecl.print Expr.printValue)) (· == .eof)
        fun u' => u'.placeless = (⟨source, package, is, cs⟩ : UnitTree).placeless := by
    refine (takes_imports himports (by omega)).bind (hclasses rfl rfl) fun is' his => ?_
    refine (takes_types htypes (by omega)).bind_last (fun _ h => h) fun cs' hcs => .pure ?_
    simp only [UnitTree.placeless, hlike, his, hcs]
  unfold unit
  cases package with
  | none =>
      refine .reject ?_ (hrest rfl)
      exact admits_flatMap (fun i _ => i.begins_print) rfl (hclasses rfl rfl)
  | some p =>
      simp only [printPackage, List.length_cons, List.length_append] at hfuel
      rw [UnitTree.print, printPackage, List.cons_append, List.append_assoc]
      refine .accept rfl ?_
      refine (takes_path (hpackage p rfl) (by omega)).bind rfl fun p' hp => ?_
      refine .expect rfl fun _ _ => ?_
      have hlike : (some p').map Path.placeless = (some p).map Path.placeless := congrArg some hp
      exact hrest hlike

/-! ## What has been read -/

theorem rereads_importRest (fuel : Nat) (done : List String) :
    Yields (importRest fuel done) fun r => ∃ more, r.1 = done.reverse ++ more ∧
      ∀ s ∈ more, Identifier s := by
  have hdone (done : List String) (wildcard : Bool) : Yields (pure (done.reverse, wildcard))
      fun r => ∃ more, r.1 = done.reverse ++ more ∧ ∀ s ∈ more, Identifier s :=
    .pure ⟨[], (List.append_nil _).symm, List.forall_mem_nil _⟩
  induction fuel generalizing done with
  | zero => exact hdone done false
  | succ fuel ih =>
      unfold importRest
      refine .skip fun _ => ?_
      split
      · refine .skip fun _ => ?_
        split
        · exact hdone done true
        · refine (yields_expect .identifier).bind fun t ht => (ih _).mono ?_
          rintro r ⟨more, hr, hmore⟩
          have hcons := List.forall_mem_cons.mpr ⟨ht.2.ident ht.1, hmore⟩
          exact ⟨t.text :: more, by simp [hr], hcons⟩
      · exact hdone done false

theorem rereads_importDecl (fuel : Nat) : Yields (importDecl fuel) Import.Readable := by
  refine (yields_expect .identifier).bind fun t ht => ?_
  refine (rereads_importRest fuel [t.text]).bind ?_
  rintro ⟨_, wildcard⟩ ⟨more, rfl, hmore⟩
  refine .skip fun _ => ?_
  split
  · exact .failAt
  · next hpackage =>
      have hidents := List.forall_mem_cons.mpr ⟨ht.2.ident ht.1, hmore⟩
      refine .pure ⟨⟨List.cons_ne_nil _ _, hidents⟩, fun hwildcard => ?_⟩
      refine Nat.not_lt.mp fun hshort => hpackage ?_
      have hsingle : wildcard = false := hwildcard
      rw [hsingle]
      exact decide_eq_true hshort

theorem rereads_imports : ∀ (fuel : Nat) (done : List Import), (∀ i ∈ done, i.Readable) →
    Yields (imports fuel done) fun is => ∀ i ∈ is, i.Readable
  | 0, _, _ => .fail
  | fuel + 1, done, hdone => by
      unfold imports
      refine .skip fun _ => ?_
      split
      · refine (rereads_importDecl fuel).bind fun i hi => ?_
        exact rereads_imports fuel _ (List.forall_mem_cons.mpr ⟨hi, hdone⟩)
      · exact .pure fun i hi => hdone i (List.mem_reverse.mp hi)

theorem rereads_types : ∀ (fuel : Nat) (done : List ClassDecl), (∀ c ∈ done, c.ReadBack) →
    Yields (types fuel done) fun cs => ∀ c ∈ cs, c.ReadBack
  | 0, _, _ => .fail
  | fuel + 1, done, hdone => by
      unfold types
      refine .skip fun _ => ?_
      split
      · exact .pure fun c hc => hdone c (List.mem_reverse.mp hc)
      · refine .skip fun _ => ?_
        split
        · exact rereads_types fuel done hdone
        · refine (rereads_modifiers fuel).bind fun mods hmods => ?_
          refine (rereads_classDecl fuel hmods).bind fun c hc => ?_
          exact rereads_types fuel _ (List.forall_mem_cons.mpr ⟨hc, hdone⟩)

/-- Every unit that has been read is read back. -/
theorem rereads_unit (fuel : Nat) (source : String) :
    Yields (unit fuel source) fun u => u.source = source ∧ u.ReadBack := by
  have hrest {package : Option Path} (hpackage : ∀ p ∈ package, p.Readable) :
      Yields (do
        let is ← imports fuel []
        let ts ← types fuel []
        return (⟨source, package, is, ts⟩ : UnitTree)) fun u => u.source = source ∧ u.ReadBack := by
    refine (rereads_imports fuel [] nofun).bind fun is his => ?_
    exact (rereads_types fuel [] nofun).bind fun ts hts => .pure ⟨rfl, hpackage, his, hts⟩
  unfold unit
  refine .skip fun packaged => ?_
  split
  · refine (yields_readablePath fuel).bind fun p hp => .skip fun _ => hrest ?_
    rintro _ ⟨⟩
    exact hp
  · exact hrest nofun

end Parse

/-! ## Texts -/

/-- The text of a tree that is read back is read as the same tree, but for positions. -/
theorem UnitTree.ReadBack.parse {u : UnitTree} (h : u.ReadBack) :
    ∃ u', UnitTree.parse u.source (u.render Expr.printValue) = .ok u' ∧
      u'.placeless = u.placeless := by
  obtain ⟨ts, pos, hscan, hts⟩ := scan_written (Parse.legible_unit h)
  have hspells := Parse.Spells.ofTokens ⟨⟨.eof, "", pos⟩, []⟩ ts
  rw [hts] at hspells
  have hfuel : 4 * (u.print Expr.printValue).length <
      parseFuel (ts ++ [(⟨.eof, "", pos⟩ : Token)]).length := by
    rw [← hts, List.length_map, List.length_append, parseFuel]
    omega
  obtain ⟨u', hrun, hlike⟩ := Parse.takes_unit h hfuel _ _ hspells rfl
  dsimp only at hrun
  refine ⟨u', ?_, hlike⟩
  simp only [UnitTree.parse, UnitTree.render, hscan, bind, Except.bind, hrun]
  rfl

/-- What is read from the text of a tree that has been read is that tree, but for positions, if the
values of annotation arguments that are assignments stand in parentheses. -/
theorem UnitTree.parse_render {source text : String} {tree : UnitTree}
    (h : UnitTree.parse source text = .ok tree) :
    ∃ tree', UnitTree.parse source (tree.render Expr.printValue) = .ok tree' ∧
      tree'.placeless = tree.placeless := by
  obtain ⟨rfl, hreadBack⟩ :=
    Parse.Yields.of_parse (fun fuel => Parse.rereads_unit fuel source) h
  exact hreadBack.parse

/-- A dangling `else`, a created array, commas behind the last of a list and an assignment as the
value of an annotation argument are read back. -/
theorem UnitTree.parse_render_dangling :
    ∃ tree, UnitTree.parse "T.probe" ("package p.q; import r.*; @A((x = 1),) class C \x7b " ++
        "int[] f = new int[2]; void m(int n,) \x7b " ++
        "if (n < 1) if (n == 0) p.q.r.m(n,); else n = n - 1 - 2; f[0] = -n; \x7d \x7d") = .ok tree ∧
      ∃ tree', UnitTree.parse "T.probe" (tree.render Expr.printValue) = .ok tree' ∧
        tree'.placeless = tree.placeless :=
  (eq_ok_of_isOk (by decide +kernel)).imp fun _ htree => ⟨htree, UnitTree.parse_render htree⟩

/-- An assignment that is the value of an annotation argument is not read back as it is. -/
theorem UnitTree.not_parse_render :
    ¬ ∀ (source text : String) (tree : UnitTree), UnitTree.parse source text = .ok tree →
      ∃ tree', UnitTree.parse source (tree.render Expr.print) = .ok tree' ∧
        tree'.placeless = tree.placeless := by
  intro h
  have hfails : ((UnitTree.parse "T.probe" "@A((x = 1)) class C \x7b\x7d").toOption.map fun tree =>
      (UnitTree.parse "T.probe" (tree.render Expr.print)).isOk) = some false := by
    decide +kernel
  obtain ⟨tree, htree, hfails⟩ := Option.map_eq_some_iff.mp hfails
  obtain ⟨tree', htree', -⟩ := h _ _ _ (eq_ok_of_toOption htree)
  rw [htree'] at hfails
  cases hfails

end ProbeLang
