import Mathlib.Tactic.Tauto
import StackMips.Proofs.Tree

/-!
# Places of variable declarations

A variable is declared at top level, in a struct or in a block, which may lie deep inside a
function.  A place says where; cutting a tree at a place gives the declaration there and the tree
without it.
Formals have no place: a function without one of its formals is another function.
-/

namespace StackMips

/-- Cut an element of a list apart: what is taken out, and the list with the rest of the element, if
there is one. -/
def cutAt {α β : Type} (cut : α → Option (β × Option α)) : Nat → List α → Option (β × List α)
  | _, [] => none
  | 0, x :: xs => (cut x).map fun part => (part.1, part.2.toList ++ xs)
  | i + 1, x :: xs => (cutAt cut i xs).map fun part => (part.1, x :: part.2)

section CutAt

variable {α β : Type} {cut : α → Option (β × Option α)}

theorem cutAt_append {before after : List α} {x : α} {b : β} {rest : Option α}
    (h : cut x = some (b, rest)) :
    cutAt cut before.length (before ++ x :: after) =
      some (b, before ++ rest.toList ++ after) := by
  induction before with
  | nil => simp [cutAt, h]
  | cons y before ih => simp [cutAt, ih]

theorem cutAt_eq_some {i : Nat} {xs ys : List α} {b : β} (h : cutAt cut i xs = some (b, ys)) :
    ∃ before x after rest, xs = before ++ x :: after ∧ before.length = i ∧
      cut x = some (b, rest) ∧ ys = before ++ rest.toList ++ after := by
  induction xs generalizing i ys with
  | nil => simp [cutAt] at h
  | cons x xs ih =>
      cases i with
      | zero =>
          obtain ⟨⟨b', rest⟩, hcut, heq⟩ := Option.map_eq_some_iff.mp h
          cases heq
          exact ⟨[], x, xs, rest, rfl, rfl, hcut, rfl⟩
      | succ i =>
          obtain ⟨⟨b', tail⟩, hcut, heq⟩ := Option.map_eq_some_iff.mp h
          cases heq
          obtain ⟨before, y, after, rest, rfl, rfl, hy, rfl⟩ := ih hcut
          exact ⟨x :: before, y, after, rest, rfl, rfl, hy, rfl⟩

end CutAt

def VarDecl.cut (decl : VarDecl) : Option (VarDecl × Option VarDecl) := some (decl, none)

/-- Cut a statement at a place in one of its blocks, which are numbered. -/
def Stmt.cut (cut : Block → Option (VarDecl × Block)) : Nat → Stmt → Option (VarDecl × Option Stmt)
  | 0, .ifThen cond body => (cut body).map fun part => (part.1, some (.ifThen cond part.2))
  | 0, .ifElse cond thenBody elseBody =>
    (cut thenBody).map fun part => (part.1, some (.ifElse cond part.2 elseBody))
  | 1, .ifElse cond thenBody elseBody =>
    (cut elseBody).map fun part => (part.1, some (.ifElse cond thenBody part.2))
  | 0, .whileLoop cond body => (cut body).map fun part => (part.1, some (.whileLoop cond part.2))
  | 0, .repeatLoop count body =>
    (cut body).map fun part => (part.1, some (.repeatLoop count part.2))
  | _, _ => none

namespace Block

/-- Where a variable is declared in a block: in the block itself, or in a block of a statement. -/
inductive Place where
  | decl (index : Nat)
  | stmt (index body : Nat) (place : Place)

def cut : Place → Block → Option (VarDecl × Block)
  | .decl index, block =>
    (cutAt VarDecl.cut index block.decls).map fun part => (part.1, ⟨part.2, block.stmts⟩)
  | .stmt index body place, block =>
    (cutAt (Stmt.cut (cut place) body) index block.stmts).map fun part =>
      (part.1, ⟨block.decls, part.2⟩)

end Block

namespace Decl

inductive Place where
  | whole
  | field (index : Nat)
  | body (place : Block.Place)

def cut : Place → Decl → Option (VarDecl × Option Decl)
  | .whole, .var decl => some (decl, none)
  | .field index, .struct decl =>
    (cutAt VarDecl.cut index decl.fields).map fun part =>
      (part.1, some (.struct { decl with fields := part.2 }))
  | .body place, .fn decl =>
    (decl.body.cut place).map fun part => (part.1, some (.fn { decl with body := part.2 }))
  | _, _ => none

end Decl

namespace Program

structure Place where
  index : Nat
  inside : Decl.Place

/-- The variable declaration at a place and the program without it. -/
def cut (place : Place) (program : Program) : Option (VarDecl × Program) :=
  (cutAt (Decl.cut place.inside) place.index program.decls).map fun part => (part.1, ⟨part.2⟩)

end Program

/-! ## Every declaration has a place -/

/-- The variables that a declaration declares, formals aside. -/
def Decl.variables : Decl → List VarDecl
  | .var decl => [decl]
  | .fn decl => decl.body.locals
  | .struct decl => decl.fields

def Program.variables (program : Program) : List VarDecl :=
  program.decls.flatMap Decl.variables

theorem exists_cutAt {α β : Type} {cut : α → Option (β × Option α)} {xs : List α} {x : α} {b : β}
    {rest : Option α} (hx : x ∈ xs) (h : cut x = some (b, rest)) :
    ∃ i ys, cutAt cut i xs = some (b, ys) := by
  obtain ⟨before, after, rfl⟩ := List.append_of_mem hx
  exact ⟨_, _, cutAt_append h⟩

theorem Block.exists_cut_of {decl : VarDecl} {block : Block}
    (hstmts : ∀ stmt ∈ block.stmts, decl ∈ stmt.locals →
      ∃ body place rest, stmt.cut (Block.cut place) body = some (decl, rest))
    (h : decl ∈ block.locals) : ∃ place rest, block.cut place = some (decl, rest) := by
  rw [Block.locals_eq, List.mem_append, List.mem_flatMap] at h
  rcases h with hdecl | ⟨stmt, hstmt, hdecl⟩
  · have hcut : decl.cut = some (decl, none) := rfl
    obtain ⟨i, decls, hcut⟩ := exists_cutAt hdecl hcut
    exact ⟨.decl i, ⟨decls, block.stmts⟩, by simp [Block.cut, hcut]⟩
  · obtain ⟨body, place, rest, hcut⟩ := hstmts stmt hstmt hdecl
    obtain ⟨i, stmts, hcut⟩ := exists_cutAt hstmt hcut
    exact ⟨.stmt i body place, ⟨block.decls, stmts⟩, by simp [Block.cut, hcut]⟩

theorem Stmt.exists_cut {decl : VarDecl} {stmt : Stmt} (h : decl ∈ stmt.locals) :
    ∃ body place rest, stmt.cut (Block.cut place) body = some (decl, rest) := by
  induction stmt using Stmt.induction with
  | assign _ _ | increment _ | decrement _ | read _ | write _ | call _ _ | ret _ _ =>
      simp [Stmt.locals] at h
  | ifThen cond body ih | whileLoop cond body ih | repeatLoop cond body ih =>
      rw [Stmt.locals] at h
      obtain ⟨place, rest, hcut⟩ := Block.exists_cut_of ih h
      exact ⟨0, place, _, by rw [Stmt.cut, hcut]; rfl⟩
  | ifElse cond thenBody elseBody ihthen ihelse =>
      rw [Stmt.locals, List.mem_append] at h
      rcases h with h | h
      · obtain ⟨place, rest, hcut⟩ := Block.exists_cut_of ihthen h
        exact ⟨0, place, _, by rw [Stmt.cut, hcut]; rfl⟩
      · obtain ⟨place, rest, hcut⟩ := Block.exists_cut_of ihelse h
        exact ⟨1, place, _, by rw [Stmt.cut, hcut]; rfl⟩

theorem Decl.exists_cut {decl : VarDecl} {whole : Decl} (h : decl ∈ whole.variables) :
    ∃ place rest, whole.cut place = some (decl, rest) := by
  cases whole with
  | var other =>
      obtain rfl : decl = other := List.mem_singleton.mp h
      exact ⟨.whole, none, rfl⟩
  | fn fn =>
      obtain ⟨place, rest, hcut⟩ := Block.exists_cut_of (fun _ _ => Stmt.exists_cut) h
      exact ⟨.body place, _, by rw [Decl.cut, hcut]; rfl⟩
  | struct struct =>
      have hfield : decl ∈ struct.fields := h
      have hcut : decl.cut = some (decl, none) := rfl
      obtain ⟨i, fields, hcut⟩ := exists_cutAt hfield hcut
      exact ⟨.field i, _, by rw [Decl.cut, hcut]; rfl⟩

theorem Program.exists_cut {decl : VarDecl} {program : Program} (h : decl ∈ program.variables) :
    ∃ place rest, program.cut place = some (decl, rest) := by
  obtain ⟨whole, hwhole, hdecl⟩ := List.mem_flatMap.mp h
  obtain ⟨inside, rest, hcut⟩ := Decl.exists_cut hdecl
  obtain ⟨i, decls, hcut⟩ := exists_cutAt hwhole hcut
  exact ⟨⟨i, inside⟩, ⟨decls⟩, by rw [Program.cut, hcut]; rfl⟩

/-! ## What a cut keeps -/

/-- Statements that differ in one block only. -/
inductive Stmt.Varies (R : Block → Block → Prop) : Stmt → Stmt → Prop
  | ifThen {cond body body'} (h : R body body') : Varies R (.ifThen cond body) (.ifThen cond body')
  | thenBody {cond body body' elseBody} (h : R body body') :
      Varies R (.ifElse cond body elseBody) (.ifElse cond body' elseBody)
  | elseBody {cond thenBody body body'} (h : R body body') :
      Varies R (.ifElse cond thenBody body) (.ifElse cond thenBody body')
  | whileLoop {cond body body'} (h : R body body') :
      Varies R (.whileLoop cond body) (.whileLoop cond body')
  | repeatLoop {count body body'} (h : R body body') :
      Varies R (.repeatLoop count body) (.repeatLoop count body')

theorem Stmt.varies_of_cut {R : Block → Block → Prop} {cut : Block → Option (VarDecl × Block)}
    {decl : VarDecl} (h : ∀ body body', cut body = some (decl, body') → R body body') {i : Nat}
    {stmt : Stmt} {rest : Option Stmt} (hcut : stmt.cut cut i = some (decl, rest)) :
    ∃ stmt', rest = some stmt' ∧ Stmt.Varies R stmt stmt' := by
  have hpart : ∀ (wrap : Block → Stmt) {body : Block},
      ((cut body).map fun part => (part.1, some (wrap part.2))) = some (decl, rest) →
        ∃ body', R body body' ∧ rest = some (wrap body') := by
    intro wrap body hmap
    obtain ⟨⟨decl', body'⟩, hbody, heq⟩ := Option.map_eq_some_iff.mp hmap
    cases heq
    exact ⟨body', h body body' hbody, rfl⟩
  unfold Stmt.cut at hcut
  split at hcut
  · obtain ⟨body', hbody, rfl⟩ := hpart (.ifThen _) hcut
    exact ⟨_, rfl, .ifThen hbody⟩
  · obtain ⟨body', hbody, rfl⟩ := hpart (.ifElse _ · _) hcut
    exact ⟨_, rfl, .thenBody hbody⟩
  · obtain ⟨body', hbody, rfl⟩ := hpart (.ifElse _ _) hcut
    exact ⟨_, rfl, .elseBody hbody⟩
  · obtain ⟨body', hbody, rfl⟩ := hpart (.whileLoop _) hcut
    exact ⟨_, rfl, .whileLoop hbody⟩
  · obtain ⟨body', hbody, rfl⟩ := hpart (.repeatLoop _) hcut
    exact ⟨_, rfl, .repeatLoop hbody⟩
  · contradiction

/-- A relation between blocks and their rests holds if it survives the loss of a declaration and is
passed on to the block around a statement. -/
theorem Block.of_cut {R : Block → Block → Prop}
    (hdecl : ∀ before decl after stmts,
      R ⟨before ++ decl :: after, stmts⟩ ⟨before ++ after, stmts⟩)
    (hstmt : ∀ decls before stmt stmt' after, Stmt.Varies R stmt stmt' →
      R ⟨decls, before ++ stmt :: after⟩ ⟨decls, before ++ stmt' :: after⟩)
    {place : Place} {decl : VarDecl} {block rest : Block}
    (h : block.cut place = some (decl, rest)) : R block rest := by
  induction place generalizing block rest with
  | decl index =>
      obtain ⟨decls, stmts⟩ := block
      obtain ⟨⟨decl', decls'⟩, hcut, heq⟩ := Option.map_eq_some_iff.mp h
      cases heq
      obtain ⟨before, other, after, rest, rfl, -, hother, rfl⟩ := cutAt_eq_some hcut
      cases hother
      simpa using hdecl before _ after stmts
  | stmt index body place ih =>
      obtain ⟨decls, stmts⟩ := block
      obtain ⟨⟨decl', stmts'⟩, hcut, heq⟩ := Option.map_eq_some_iff.mp h
      cases heq
      obtain ⟨before, stmt, after, rest, rfl, -, hstmt', rfl⟩ := cutAt_eq_some hcut
      obtain ⟨stmt', rfl, hvaries⟩ := Stmt.varies_of_cut (fun _ _ => ih) hstmt'
      simpa using hstmt decls before stmt stmt' after hvaries

theorem Block.idents_cut {place : Place} {decl : VarDecl} {block rest : Block}
    (h : block.cut place = some (decl, rest)) : rest.idents ⊆ block.idents := by
  refine of_cut (R := fun block rest => rest.idents ⊆ block.idents) ?_ ?_ h
  · intro before decl after stmts id hid
    simp only [Block.idents_eq, List.flatMap_append, List.flatMap_cons, List.mem_append] at hid ⊢
    tauto
  · intro decls before stmt stmt' after hvaries id hid
    have hstmt : id ∈ stmt'.idents → id ∈ stmt.idents := by
      cases hvaries with
      | ifThen h | thenBody h | elseBody h | whileLoop h | repeatLoop h =>
          have := @h id
          simp only [Stmt.idents, List.mem_append]
          tauto
    simp only [Block.idents_eq, List.flatMap_append, List.flatMap_cons, List.mem_append] at hid ⊢
    tauto

theorem Stmt.inGrammar_iff {stmt : Stmt} : stmt.InGrammar ↔
    (stmt.isFormed ∧ ∀ e ∈ stmt.exprs, e.InGrammar) ∧ ∀ body ∈ stmt.bodies, body.InGrammar := by
  simp only [Stmt.InGrammar, Stmt.nodes_eq stmt, List.forall_mem_cons, List.forall_mem_flatMap,
    Block.nodes_eq]
  rfl

theorem Block.inGrammar_cut {place : Place} {decl : VarDecl} {block rest : Block}
    (h : block.cut place = some (decl, rest)) (hgrammar : block.InGrammar) : rest.InGrammar := by
  refine of_cut (R := fun block rest => block.InGrammar → rest.InGrammar) ?_ ?_ h hgrammar
  · intro before decl after stmts hblock
    exact hblock
  · intro decls before stmt stmt' after hvaries hblock
    have hstmt : stmt.InGrammar → stmt'.InGrammar := by
      rw [Stmt.inGrammar_iff, Stmt.inGrammar_iff]
      cases hvaries with
      | ifThen h | thenBody h | elseBody h | whileLoop h | repeatLoop h =>
          simp only [Stmt.bodies, List.forall_mem_cons]
          tauto
    simp only [InGrammar, List.forall_mem_append, List.forall_mem_cons] at hblock ⊢
    tauto

inductive Decl.Loses (decl : VarDecl) : Decl → Option Decl → Prop
  | var : Loses decl (.var decl) none
  | field {id before after} :
      Loses decl (.struct ⟨id, before ++ decl :: after⟩) (some (.struct ⟨id, before ++ after⟩))
  | body {fn : FnDecl} {place rest} (h : fn.body.cut place = some (decl, rest)) :
      Loses decl (.fn fn) (some (.fn { fn with body := rest }))

theorem Decl.loses_of_cut {place : Place} {whole : Decl} {decl : VarDecl} {rest : Option Decl}
    (h : whole.cut place = some (decl, rest)) : Loses decl whole rest := by
  unfold Decl.cut at h
  split at h
  · cases h
    exact .var
  · obtain ⟨⟨decl', fields⟩, hcut, heq⟩ := Option.map_eq_some_iff.mp h
    cases heq
    obtain ⟨before, field, after, rest, hfields, -, hfield, rfl⟩ := cutAt_eq_some hcut
    cases hfield
    rename_i struct
    obtain ⟨id, fields⟩ := struct
    obtain rfl : fields = before ++ _ :: after := hfields
    simpa using Loses.field
  · obtain ⟨⟨decl', body⟩, hcut, heq⟩ := Option.map_eq_some_iff.mp h
    cases heq
    exact .body hcut
  · contradiction

namespace Program

variable {place : Place} {decl : VarDecl} {program rest : Program}

/-- One declaration loses the variable and the others stay. -/
theorem loses_of_cut (h : program.cut place = some (decl, rest)) :
    ∃ before whole after left, program.decls = before ++ whole :: after ∧
      Decl.Loses decl whole left ∧ rest.decls = before ++ left.toList ++ after := by
  obtain ⟨⟨decl', decls⟩, hcut, heq⟩ := Option.map_eq_some_iff.mp h
  cases heq
  obtain ⟨before, whole, after, left, hdecls, -, hwhole, rfl⟩ := cutAt_eq_some hcut
  exact ⟨before, whole, after, left, hdecls, Decl.loses_of_cut hwhole, rfl⟩

theorem unlinked_cut (h : program.cut place = some (decl, rest)) (hunlinked : program.Unlinked) :
    rest.Unlinked := by
  obtain ⟨before, whole, after, left, hdecls, hloses, hrest⟩ := loses_of_cut h
  have hleft : ∀ id ∈ left.toList.flatMap Decl.idents, id ∈ whole.idents := by
    intro id hid
    cases hloses with
    | var => simp at hid
    | field =>
        simp only [Option.toList, Decl.idents, StructDecl.idents, List.flatMap_append,
          List.flatMap_cons, List.mem_cons, List.mem_append] at hid ⊢
        tauto
    | body hcut =>
        have hbody := fun h => Block.idents_cut hcut (a := id) h
        simp only [Option.toList, List.flatMap_singleton, Decl.idents, FnDecl.idents,
          List.mem_append] at hid ⊢
        tauto
  intro id hid
  apply hunlinked id
  simp only [idents, hrest, hdecls, List.flatMap_append, List.flatMap_cons, List.mem_append]
    at hid ⊢
  have := hleft id
  tauto

theorem inGrammar_cut (h : program.cut place = some (decl, rest)) (hgrammar : program.InGrammar) :
    rest.InGrammar := by
  obtain ⟨before, whole, after, left, hdecls, hloses, hrest⟩ := loses_of_cut h
  simp only [InGrammar, mem_functions, hdecls, hrest, List.mem_append, List.mem_cons] at hgrammar ⊢
  rintro fn ((hfn | hfn) | hfn)
  · exact hgrammar fn (.inl hfn)
  · cases hloses with
    | var => simp at hfn
    | field => simp at hfn
    | body hcut =>
        obtain rfl : fn = _ := by simpa using hfn
        exact Block.inGrammar_cut hcut (hgrammar _ (.inr (.inl rfl)))
  · exact hgrammar fn (.inr (.inr hfn))

end Program

end StackMips
