import StackMips.Proofs.Resolution.Linking

/-!
# Passes

Resolution walks over lists, blocks, statements and declarations in the same manner: a state goes
in, and a linked tree, reports and a new state come out.  What is said of such a pass over one
element holds, by one induction, of the pass over a list of them.
-/

namespace StackMips

/-- What a walk makes of a tree: the state it ends in, the linked tree and the reports. -/
structure Pass (σ α : Type) where
  after : σ → α → σ
  linked : σ → α → α
  reports : σ → α → List Diagnostic

namespace Pass

variable {σ τ α γ : Type}

def option (pass : Pass σ α) : Pass σ (Option α) where
  after s x? := x?.elim s (pass.after s)
  linked s := Option.map (pass.linked s)
  reports s x? := x?.elim [] (pass.reports s)

def linkedAll (pass : Pass σ α) : σ → List α → List α
  | _, [] => []
  | s, x :: xs => pass.linked s x :: linkedAll pass (pass.after s x) xs

def reportsAll (pass : Pass σ α) : σ → List α → List Diagnostic
  | _, [] => []
  | s, x :: xs => pass.reports s x ++ reportsAll pass (pass.after s x) xs

def all (pass : Pass σ α) : Pass σ (List α) where
  after s xs := xs.foldl pass.after s
  linked := pass.linkedAll
  reports := pass.reportsAll

theorem length_linkedAll (pass : Pass σ α) (s : σ) (xs : List α) :
    (pass.linkedAll s xs).length = xs.length := by
  induction xs generalizing s with
  | nil => rfl
  | cons x xs ih => rw [linkedAll, List.length_cons, ih, List.length_cons]

theorem linkedAll_append (pass : Pass σ α) (s : σ) (xs ys : List α) :
    pass.linkedAll s (xs ++ ys) =
      pass.linkedAll s xs ++ pass.linkedAll (pass.all.after s xs) ys := by
  induction xs generalizing s with
  | nil => rfl
  | cons x xs ih => rw [List.cons_append, linkedAll, linkedAll, ih, List.cons_append]; rfl

theorem reportsAll_append (pass : Pass σ α) (s : σ) (xs ys : List α) :
    pass.reportsAll s (xs ++ ys) =
      pass.reportsAll s xs ++ pass.reportsAll (pass.all.after s xs) ys := by
  induction xs generalizing s with
  | nil => rfl
  | cons x xs ih => rw [List.cons_append, reportsAll, reportsAll, ih, List.append_assoc]; rfl

end Pass

/-! ## The walks of resolution -/

namespace VarDecl

def pass (declare : Resolver → VarDecl → Resolver) : Pass Resolver VarDecl where
  after := declare
  linked r decl := decl.linked r r.table
  reports r decl := decl.reports r r.table

theorem linkedAll_eq_pass (declare : Resolver → VarDecl → Resolver) (r : Resolver)
    (decls : List VarDecl) : linkedAll declare r decls = (pass declare).linkedAll r decls := by
  induction decls generalizing r with
  | nil => rfl
  | cons decl decls ih => rw [linkedAll, Pass.linkedAll, ih]; rfl

theorem reportsAll_eq_pass (declare : Resolver → VarDecl → Resolver) (r : Resolver)
    (decls : List VarDecl) : reportsAll declare r decls = (pass declare).reportsAll r decls := by
  induction decls generalizing r with
  | nil => rfl
  | cons decl decls ih => rw [reportsAll, Pass.reportsAll, ih]; rfl

end VarDecl

namespace StructDecl

/-- The walk over the fields of a struct, with the table of fields and the next offset. -/
def fieldPass : Pass (Resolver × SymbolTable × Int) VarDecl where
  after := fun (r, table, offset) decl =>
    match decl.accepted? r table with
    | none => (r, table, offset)
    | some kind =>
      (r.allocate (decl.symbol offset kind), table.extend decl.id.name r.symbols.size,
        offset - wordSize)
  linked := fun (r, table, _) decl => decl.linked r table
  reports := fun (r, table, _) decl => decl.reports r table

theorem fields_eq_pass (r : Resolver) (table : SymbolTable) (offset : Int) (fields : List VarDecl) :
    fieldsAfter r table offset fields =
      ((fieldPass.all.after (r, table, offset) fields).1,
        (fieldPass.all.after (r, table, offset) fields).2.1) ∧
    fieldsLinked r table offset fields = fieldPass.linkedAll (r, table, offset) fields ∧
    fieldsReports r table offset fields = fieldPass.reportsAll (r, table, offset) fields := by
  induction fields generalizing r table offset with
  | nil => exact ⟨rfl, rfl, rfl⟩
  | cons decl fields ih =>
      have hafter : fieldPass.all.after (r, table, offset) (decl :: fields) =
          fieldPass.all.after (fieldPass.after (r, table, offset) decl) fields := rfl
      rw [fieldsAfter, fieldsLinked, fieldsReports, hafter, Pass.linkedAll, Pass.reportsAll]
      cases haccepted : decl.accepted? r table with
      | none =>
          have hstep : fieldPass.after (r, table, offset) decl = (r, table, offset) := by
            simp [fieldPass, haccepted]
          obtain ⟨ihafter, ihlinked, ihreports⟩ := ih r table offset
          rw [hstep]
          exact ⟨ihafter, congrArg _ ihlinked, congrArg _ ihreports⟩
      | some kind =>
          have hstep : fieldPass.after (r, table, offset) decl =
              (r.allocate (decl.symbol offset kind), table.extend decl.id.name r.symbols.size,
                offset - wordSize) := by
            simp [fieldPass, haccepted]
          obtain ⟨ihafter, ihlinked, ihreports⟩ := ih (r.allocate (decl.symbol offset kind))
            (table.extend decl.id.name r.symbols.size) (offset - wordSize)
          rw [hstep]
          exact ⟨ihafter, congrArg _ ihlinked, congrArg _ ihreports⟩

end StructDecl

def Stmt.pass : Pass Resolver Stmt where
  after r stmt := stmt.after r
  linked r stmt := stmt.linked r
  reports r stmt := stmt.reports r

def Block.pass : Pass Resolver Block where
  after r block := block.after r
  linked r block := block.linked r
  reports r block := block.reports r

def Decl.pass : Pass Resolver Decl where
  after r decl := decl.after r
  linked r decl := decl.linked r
  reports r decl := decl.reports r

theorem Stmt.all_eq_pass (r : Resolver) (stmts : List Stmt) :
    Stmt.afterAll r stmts = pass.all.after r stmts ∧
    Stmt.linkedAll r stmts = pass.linkedAll r stmts ∧
    Stmt.reportsAll r stmts = pass.reportsAll r stmts := by
  induction stmts generalizing r with
  | nil => exact ⟨rfl, rfl, rfl⟩
  | cons stmt stmts ih =>
      obtain ⟨ihafter, ihlinked, ihreports⟩ := ih (stmt.after r)
      rw [afterAll, linkedAll, reportsAll]
      exact ⟨ihafter, congrArg _ ihlinked, congrArg _ ihreports⟩

theorem Decl.all_eq_pass (r : Resolver) (decls : List Decl) :
    Decl.linkedAll r decls = pass.linkedAll r decls ∧
    Decl.reportsAll r decls = pass.reportsAll r decls := by
  induction decls generalizing r with
  | nil => exact ⟨rfl, rfl⟩
  | cons decl decls ih =>
      obtain ⟨ihlinked, ihreports⟩ := ih (decl.after r)
      rw [linkedAll, reportsAll]
      exact ⟨congrArg _ ihlinked, congrArg _ ihreports⟩

end StackMips
