import StackMips.Proofs.Resolution.Passes
import StackMips.Proofs.Tree.Places

/-!
# Rejection without a trace

What resolution does with a tree inside another one depends on the surroundings through the state
alone.  So it is enough to see that a rejected declaration leaves the state as it was: then nothing
around it can tell whether it was there.
-/

namespace StackMips

def VarDecl.objections (decl : VarDecl) : List Diagnostic :=
  (match decl.type with
    | .void => [Diagnostic.ofCode .voidVariable decl.id.pos]
    | .struct id => [Diagnostic.ofCode .unknownStruct id.pos]
    | .int | .bool => []) ++ [Diagnostic.ofCode .multiplyDeclared decl.id.pos]

namespace Pass

variable {σ τ α γ : Type}

/-! ## Without a trace -/

/-- The walk over `y` is the walk over `x` less some reports that a declaration is the reason
for. -/
structure Misses (pass : Pass σ α) (s : σ) (decl : VarDecl) (x y y' : α) : Prop where
  after : pass.after s y = pass.after s x
  linked : pass.linked s y = y'
  reports : ∃ before own behind, own ≠ [] ∧ own.Sublist decl.objections ∧
    pass.reports s x = before ++ own ++ behind ∧ pass.reports s y = before ++ behind

/-- A declaration in `x` that is rejected leaves no trace: from every state, the walk over `x` less
the declaration gives what the walk over `x` gives, less the declaration. -/
def Spares (pass : Pass σ α) (cut : α → Option (VarDecl × α)) (decl : VarDecl) (x y : α) : Prop :=
  ∀ s, ∃ decl' y', cut (pass.linked s x) = some (decl', y') ∧
    (decl'.id.link = none → pass.Misses s decl x y y')

/-- What stands around a tree inside a larger one: how the walk over the larger tree gets to the
inner one, and what it does with the state that comes back. -/
structure Frame (inner : Pass σ α) (outer : Pass τ γ) where
  wrap : α → γ
  enter : τ → σ
  leave : τ → σ → τ
  /-- The linked surroundings. -/
  relink : τ → σ → α → γ
  head : τ → List Diagnostic
  tail : τ → σ → List Diagnostic
  after_wrap : ∀ t x, outer.after t (wrap x) = leave t (inner.after (enter t) x)
  linked_wrap : ∀ t x,
    outer.linked t (wrap x) = relink t (inner.after (enter t) x) (inner.linked (enter t) x)
  reports_wrap : ∀ t x, outer.reports t (wrap x) =
    head t ++ inner.reports (enter t) x ++ tail t (inner.after (enter t) x)

/-- A declaration that leaves no trace in a tree leaves none around it. -/
theorem Frame.spares {inner : Pass σ α} {outer : Pass τ γ} (frame : Frame inner outer)
    {cut : α → Option (VarDecl × α)} {cut' : γ → Option (VarDecl × γ)}
    (hcut : ∀ t s z decl y, cut z = some (decl, y) →
      cut' (frame.relink t s z) = some (decl, frame.relink t s y))
    {decl : VarDecl} {x y : α} (h : inner.Spares cut decl x y) :
    outer.Spares cut' decl (frame.wrap x) (frame.wrap y) := by
  intro t
  obtain ⟨decl', y', hdecl, hmisses⟩ := h (frame.enter t)
  refine ⟨decl', frame.relink t (inner.after (frame.enter t) x) y', ?_, ?_⟩
  · rw [frame.linked_wrap]
    exact hcut _ _ _ _ _ hdecl
  · intro hlink
    obtain ⟨hafter, hlinked, before, own, behind, hown, hobjections, hx, hy⟩ := hmisses hlink
    refine ⟨?_, ?_, frame.head t ++ before, own,
      behind ++ frame.tail t (inner.after (frame.enter t) x), hown, hobjections, ?_, ?_⟩
    · rw [frame.after_wrap, frame.after_wrap, hafter]
    · rw [frame.linked_wrap, hafter, hlinked]
    · rw [frame.reports_wrap, hx]
      simp only [List.append_assoc]
    · rw [frame.reports_wrap, hafter, hy]
      simp only [List.append_assoc]

def between (pass : Pass σ α) (before after : List α) : Frame pass.option pass.all where
  wrap x? := before ++ x?.toList ++ after
  enter s := pass.all.after s before
  leave _ s := pass.all.after s after
  relink t s x? := pass.linkedAll t before ++ x?.toList ++ pass.linkedAll s after
  head t := pass.reportsAll t before
  tail _ s := pass.reportsAll s after
  after_wrap t x? := by cases x? <;> simp [all, option]
  linked_wrap t x? := by
    cases x? <;> simp [all, option, linkedAll_append, linkedAll]
  reports_wrap t x? := by
    cases x? <;> simp [all, option, reportsAll_append, reportsAll]

theorem spares_cutAt (pass : Pass σ α) {cut : α → Option (VarDecl × Option α)} {decl : VarDecl}
    {i : Nat} {xs ys : List α}
    (h : ∀ x rest, cut x = some (decl, rest) →
      pass.option.Spares (·.bind cut) decl (some x) rest)
    (hcut : cutAt cut i xs = some (decl, ys)) : pass.all.Spares (cutAt cut i) decl xs ys := by
  obtain ⟨before, x, after, rest, rfl, rfl, hx, rfl⟩ := cutAt_eq_some hcut
  have hrelink : ∀ t s (z? : Option α) decl y, z?.bind cut = some (decl, y) →
      cutAt cut before.length ((pass.between before after).relink t s z?) =
        some (decl, (pass.between before after).relink t s y) := by
    intro t s z? decl y hz
    obtain ⟨z, rfl, hz⟩ := Option.bind_eq_some_iff.mp hz
    have hlist : cutAt cut (pass.linkedAll t before).length
        (pass.linkedAll t before ++ z :: pass.linkedAll s after) =
        some (decl, pass.linkedAll t before ++ y.toList ++ pass.linkedAll s after) :=
      cutAt_append hz
    rw [length_linkedAll] at hlist
    simpa [between] using hlist
  simpa [between] using (pass.between before after).spares hrelink (h x rest hx)

end Pass

/-! ## Rejected declarations -/

namespace VarDecl

variable {r : Resolver} {target : SymbolTable}

theorem reports_sublist (decl : VarDecl) : (decl.reports r target).Sublist decl.objections := by
  have htype : (decl.typeReports r).Sublist (match decl.type with
      | .void => [Diagnostic.ofCode .voidVariable decl.id.pos]
      | .struct id => [Diagnostic.ofCode .unknownStruct id.pos]
      | .int | .bool => []) := by
    rw [typeReports]
    cases decl.type with
    | int | bool | void => exact List.Sublist.refl _
    | struct id =>
        simp only [TypeName.reports]
        split
        · exact List.nil_sublist _
        · exact List.Sublist.refl _
  apply htype.append
  split
  · exact List.Sublist.refl _
  · exact List.nil_sublist _

theorem reports_ne_nil {decl : VarDecl} (h : decl.accepted? r target = none) :
    decl.reports r target ≠ [] := by
  rw [reports]
  rw [accepted?] at h
  split at h
  · rename_i htaken
    simp [htaken]
  · have hkind : decl.typeReports r ≠ [] := by
      rw [kind?] at h
      rw [typeReports]
      cases htype : decl.type with
      | int | bool => simp [htype] at h
      | void => simp
      | struct id => simp_all [TypeName.reports]
    simp [hkind]

end VarDecl

/-- A walk over declarations that stays in its state where it rejects one. -/
def Pass.Rejects {σ : Type} (pass : Pass σ VarDecl) : Prop :=
  ∀ s decl, ∃ r target, pass.linked s decl = decl.linked r target ∧
    pass.reports s decl = decl.reports r target ∧
    (decl.accepted? r target = none → pass.after s decl = s)

namespace Pass.Rejects

variable {σ : Type} {pass : Pass σ VarDecl} (h : pass.Rejects) {decl : VarDecl}
include h

theorem spares_decl {rest : Option VarDecl} {whole : VarDecl}
    (hcut : whole.cut = some (decl, rest)) :
    pass.option.Spares (·.bind VarDecl.cut) decl (some whole) rest := by
  cases hcut
  intro s
  obtain ⟨r, target, hlinked, hreports, hafter⟩ := h s decl
  refine ⟨pass.linked s decl, none, rfl, ?_⟩
  intro hlink
  rw [hlinked] at hlink
  have hrejected : decl.accepted? r target = none := Option.map_eq_none_iff.mp hlink
  refine ⟨(hafter hrejected).symm, rfl, [], pass.reports s decl, [], ?_, ?_, ?_, rfl⟩
  · rw [hreports]
    exact VarDecl.reports_ne_nil hrejected
  · rw [hreports]
    exact decl.reports_sublist
  · simp [Pass.option]

theorem spares {i : Nat} {decls rest : List VarDecl}
    (hcut : cutAt VarDecl.cut i decls = some (decl, rest)) :
    pass.all.Spares (cutAt VarDecl.cut i) decl decls rest :=
  pass.spares_cutAt (fun _ _ => h.spares_decl) hcut

end Pass.Rejects

theorem Resolver.rejects_declareLocal : (VarDecl.pass Resolver.declareLocal).Rejects := by
  intro r decl
  refine ⟨r, r.table, rfl, rfl, ?_⟩
  intro h
  simp only [VarDecl.pass, declareLocal, h]

theorem Resolver.rejects_declareGlobal : (VarDecl.pass Resolver.declareGlobal).Rejects := by
  intro r decl
  refine ⟨r, r.table, rfl, rfl, ?_⟩
  intro h
  simp only [VarDecl.pass, declareGlobal, h]

theorem StructDecl.rejects_fieldPass : fieldPass.Rejects := by
  intro s decl
  refine ⟨s.1, s.2.1, rfl, rfl, ?_⟩
  intro h
  simp only [fieldPass, h]

/-! ## Surroundings -/

namespace Stmt

/-- A statement with a condition or count and one block, which is resolved in a scope of its own. -/
def bodyFrame (wrap : Expr → Block → Stmt)
    (hafter : ∀ e body r, (wrap e body).after r = (body.after r.enter).backTo r)
    (hlinked : ∀ e body r, (wrap e body).linked r = wrap (e.linked r) (body.linked r.enter))
    (hreports : ∀ e body r, (wrap e body).reports r = e.reports r ++ body.reports r.enter)
    (e : Expr) : Block.pass.Frame pass.option where
  wrap body := some (wrap e body)
  enter r := r.enter
  leave r s := s.backTo r
  relink r _ body := some (wrap (e.linked r) body)
  head r := e.reports r
  tail _ _ := []
  after_wrap r body := hafter e body r
  linked_wrap r body := congrArg some (hlinked e body r)
  reports_wrap r body := (hreports e body r).trans (List.append_nil _).symm

def ifThenFrame : Expr → Block.pass.Frame pass.option :=
  bodyFrame .ifThen (by simp [after]) (by simp [linked]) (by simp [reports])

def whileFrame : Expr → Block.pass.Frame pass.option :=
  bodyFrame .whileLoop (by simp [after]) (by simp [linked]) (by simp [reports])

def repeatFrame : Expr → Block.pass.Frame pass.option :=
  bodyFrame .repeatLoop (by simp [after]) (by simp [linked]) (by simp [reports])

/-- The second branch of a statement is resolved in the state after the first. -/
def thenFrame (cond : Expr) (elseBody : Block) : Block.pass.Frame pass.option where
  wrap body := some (.ifElse cond body elseBody)
  enter r := r.enter
  leave r s := (elseBody.after (s.backTo r).enter).backTo r
  relink r s body := some (.ifElse (cond.linked r) body (elseBody.linked (s.backTo r).enter))
  head r := cond.reports r
  tail r s := elseBody.reports (s.backTo r).enter
  after_wrap _ _ := by simp [Pass.option, pass, Block.pass, after]
  linked_wrap _ _ := by simp [Pass.option, pass, Block.pass, linked]
  reports_wrap _ _ := by simp [Pass.option, pass, Block.pass, reports]

def elseFrame (cond : Expr) (thenBody : Block) : Block.pass.Frame pass.option where
  wrap body := some (.ifElse cond thenBody body)
  enter r := ((thenBody.after r.enter).backTo r).enter
  leave r s := s.backTo r
  relink r _ body := some (.ifElse (cond.linked r) (thenBody.linked r.enter) body)
  head r := cond.reports r ++ thenBody.reports r.enter
  tail _ _ := []
  after_wrap _ _ := by simp [Pass.option, pass, Block.pass, after]
  linked_wrap _ _ := by simp [Pass.option, pass, Block.pass, linked]
  reports_wrap _ _ := by simp [Pass.option, pass, Block.pass, reports]

theorem spares_cut {cut : Block → Option (VarDecl × Block)} {decl : VarDecl}
    (h : ∀ body rest, cut body = some (decl, rest) → Block.pass.Spares cut decl body rest) {i : Nat}
    {stmt : Stmt} {rest : Option Stmt} (hcut : stmt.cut cut i = some (decl, rest)) :
    pass.option.Spares (·.bind (Stmt.cut cut i)) decl (some stmt) rest := by
  unfold Stmt.cut at hcut
  split at hcut
  · obtain ⟨⟨decl', body'⟩, hbody, heq⟩ := Option.map_eq_some_iff.mp hcut
    cases heq
    apply (ifThenFrame _).spares _ (h _ _ hbody)
    intro r s z decl y hz
    simp [ifThenFrame, bodyFrame, Stmt.cut, hz]
  · obtain ⟨⟨decl', body'⟩, hbody, heq⟩ := Option.map_eq_some_iff.mp hcut
    cases heq
    apply (thenFrame _ _).spares _ (h _ _ hbody)
    intro r s z decl y hz
    simp [thenFrame, Stmt.cut, hz]
  · obtain ⟨⟨decl', body'⟩, hbody, heq⟩ := Option.map_eq_some_iff.mp hcut
    cases heq
    apply (elseFrame _ _).spares _ (h _ _ hbody)
    intro r s z decl y hz
    simp [elseFrame, Stmt.cut, hz]
  · obtain ⟨⟨decl', body'⟩, hbody, heq⟩ := Option.map_eq_some_iff.mp hcut
    cases heq
    apply (whileFrame _).spares _ (h _ _ hbody)
    intro r s z decl y hz
    simp [whileFrame, bodyFrame, Stmt.cut, hz]
  · obtain ⟨⟨decl', body'⟩, hbody, heq⟩ := Option.map_eq_some_iff.mp hcut
    cases heq
    apply (repeatFrame _).spares _ (h _ _ hbody)
    intro r s z decl y hz
    simp [repeatFrame, bodyFrame, Stmt.cut, hz]
  · contradiction

end Stmt

namespace Block

def declsFrame (stmts : List Stmt) : (VarDecl.pass Resolver.declareLocal).all.Frame pass where
  wrap decls := ⟨decls, stmts⟩
  enter r := r
  leave _ s := Stmt.afterAll s stmts
  relink _ s decls := ⟨decls, Stmt.linkedAll s stmts⟩
  head _ := []
  tail _ s := Stmt.reportsAll s stmts
  after_wrap _ _ := by
    simp only [pass, after]
    rfl
  linked_wrap _ _ := by
    simp only [pass, linked, VarDecl.linkedAll_eq_pass]
    rfl
  reports_wrap _ _ := by
    simp only [pass, reports, VarDecl.reportsAll_eq_pass]
    rfl

def stmtsFrame (decls : List VarDecl) : Stmt.pass.all.Frame pass where
  wrap stmts := ⟨decls, stmts⟩
  enter r := r.declareLocals decls
  leave _ s := s
  relink r _ stmts := ⟨VarDecl.linkedAll Resolver.declareLocal r decls, stmts⟩
  head r := VarDecl.reportsAll Resolver.declareLocal r decls
  tail _ _ := []
  after_wrap _ _ := by simp only [pass, after, Stmt.all_eq_pass]
  linked_wrap _ _ := by
    simp only [pass, linked, Stmt.all_eq_pass]
    rfl
  reports_wrap _ _ := by
    simp only [pass, reports, Stmt.all_eq_pass, List.append_nil]
    rfl

/-- A rejected declaration leaves no trace in the block, however deep inside it stands. -/
theorem spares_cut {place : Place} {decl : VarDecl} {block rest : Block}
    (hcut : block.cut place = some (decl, rest)) :
    pass.Spares (Block.cut place) decl block rest := by
  induction place generalizing block rest with
  | decl index =>
      obtain ⟨decls, stmts⟩ := block
      obtain ⟨⟨decl', decls'⟩, hdecls, heq⟩ := Option.map_eq_some_iff.mp hcut
      cases heq
      apply (declsFrame stmts).spares _ (Resolver.rejects_declareLocal.spares hdecls)
      intro r s z decl y hz
      simp [declsFrame, cut, hz]
  | stmt index body place ih =>
      obtain ⟨decls, stmts⟩ := block
      obtain ⟨⟨decl', stmts'⟩, hstmts, heq⟩ := Option.map_eq_some_iff.mp hcut
      cases heq
      have hspares := Stmt.pass.spares_cutAt (fun _ _ => Stmt.spares_cut fun _ _ => ih) hstmts
      apply (stmtsFrame decls).spares _ hspares
      intro r s z decl y hz
      simp [stmtsFrame, cut, hz]

end Block

namespace Decl

def varFrame : (VarDecl.pass Resolver.declareGlobal).option.Frame pass.option where
  wrap := Option.map .var
  enter r := r
  leave _ s := s
  relink _ _ := Option.map .var
  head _ := []
  tail _ _ := []
  after_wrap _ decl? := by cases decl? <;> rfl
  linked_wrap _ decl? := by cases decl? <;> rfl
  reports_wrap _ decl? := by
    cases decl? with
    | none => rfl
    | some decl => exact (List.append_nil _).symm

def bodyFrame (fn : FnDecl) : Block.pass.Frame pass.option where
  wrap body := some (.fn { fn with body })
  enter r := fn.inside r
  leave r s :=
    let walked := s.backTo (fn.named r)
    if fn.isTaken r then walked
    else
      { walked with
        symbols := walked.symbols.modify r.symbols.size
          (·.withFrame (VarDecl.acceptedTypes (fn.linkedFormals r)) fn.returnType.toTy
            walked.localWords) }
  relink r _ body := some (.fn { fn.linked r with body })
  head r :=
    fn.returnType.reports r ++
      (if fn.isTaken r then [Diagnostic.ofCode .multiplyDeclared fn.id.pos] else []) ++
      VarDecl.reportsAll Resolver.declareFormal (fn.opened r) fn.formals
  tail _ _ := []
  after_wrap _ _ := rfl
  linked_wrap _ _ := rfl
  reports_wrap _ _ := (List.append_nil _).symm

def fieldsFrame (struct : StructDecl) : StructDecl.fieldPass.all.Frame pass.option where
  wrap fields := some (.struct { struct with fields })
  enter r := (r, {}, 0)
  leave r s :=
    if struct.isTaken r then s.1
    else s.1.accept (Symbol.ofStructDef struct.id.name s.2.1 struct.id.pos)
  relink r s fields := some (.struct {
    id :=
      { struct.id with link := if struct.isTaken r then none else some s.1.symbols.size }
    fields })
  head r :=
    if struct.isTaken r then [Diagnostic.ofCode .multiplyDeclared struct.id.pos] else []
  tail _ _ := []
  after_wrap r fields := by
    have hfields := (StructDecl.fields_eq_pass r {} 0 fields).1
    simp only [Pass.option, Option.elim, pass, after, StructDecl.after, StructDecl.isTaken,
      StructDecl.walked, StructDecl.fieldTable, hfields]
    rfl
  linked_wrap r fields := by
    have hfields := StructDecl.fields_eq_pass r {} 0 fields
    simp only [Pass.option, Option.map, pass, linked, StructDecl.linked, StructDecl.isTaken,
      StructDecl.walked, hfields]
    rfl
  reports_wrap r fields := by
    have hfields := (StructDecl.fields_eq_pass r {} 0 fields).2.2
    simp only [Pass.option, Option.elim, pass, reports, StructDecl.reports, StructDecl.isTaken,
      hfields, List.append_nil]
    rfl

theorem spares_cut {place : Place} {decl : VarDecl} {whole : Decl} {rest : Option Decl}
    (hcut : whole.cut place = some (decl, rest)) :
    pass.option.Spares (·.bind (Decl.cut place)) decl (some whole) rest := by
  unfold Decl.cut at hcut
  split at hcut
  · cases hcut
    have hspares : (VarDecl.pass Resolver.declareGlobal).option.Spares (·.bind VarDecl.cut) decl
        (some decl) none := Resolver.rejects_declareGlobal.spares_decl rfl
    apply varFrame.spares _ hspares
    intro r s z? decl y hz
    obtain ⟨z, rfl, hz⟩ := Option.bind_eq_some_iff.mp hz
    cases hz
    rfl
  · rename_i struct
    obtain ⟨⟨decl', fields⟩, hfields, heq⟩ := Option.map_eq_some_iff.mp hcut
    cases heq
    apply (fieldsFrame struct).spares _ (StructDecl.rejects_fieldPass.spares hfields)
    intro r s z decl y hz
    simp [fieldsFrame, Decl.cut, hz]
  · obtain ⟨⟨decl', body⟩, hbody, heq⟩ := Option.map_eq_some_iff.mp hcut
    cases heq
    apply (bodyFrame _).spares _ (Block.spares_cut hbody)
    intro r s z decl y hz
    simp [bodyFrame, Decl.cut, hz]
  · contradiction

end Decl

end StackMips
