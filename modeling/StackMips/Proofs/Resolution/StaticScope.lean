import Mathlib.Data.List.Forall2
import StackMips.Proofs.Resolution.Scoping

/-!
# Static scoping

Which declaration a name refers to can be read off the tree: it is the nearest one in the lists of
declarations around the name, from the inside out.  This module says so for a linked tree, without
tables or a walk, and proves that resolution sets exactly these links and reports exactly the names
that have none.
-/

namespace StackMips

/-! ## Chains of scopes -/

/-- A declaration of a scope.  It is accepted if it has a link. -/
structure Binder where
  id : Ident
  /-- Whether a struct is defined. -/
  isStruct : Bool := false

namespace Binder

def find? (binders : List Binder) (name : String) : Option Binder :=
  binders.find? fun binder => binder.id.name == name && binder.id.link.isSome

theorem of_find? {binders : List Binder} {name : String} {binder : Binder}
    (h : find? binders name = some binder) :
    binder ∈ binders ∧ binder.id.name = name ∧ ∃ id, binder.id.link = some id := by
  have hfound := List.find?_some h
  simp only [Bool.and_eq_true, beq_iff_eq, Option.isSome_iff_exists] at hfound
  exact ⟨List.mem_of_find?_eq_some h, hfound⟩

end Binder

/-- The declarations of the scopes around a place, from the inside out.  Each scope lists them in
the order of the text. -/
abbrev Chain := List (List Binder)

namespace Chain

def nearest (chain : Chain) (name : String) : Option Binder :=
  chain.findSome? (Binder.find? · name)

def declare : Chain → Binder → Chain
  | [], binder => [[binder]]
  | scope :: chain, binder => (scope ++ [binder]) :: chain

def declareAll (chain : Chain) (binders : List Binder) : Chain :=
  binders.foldl declare chain

theorem declareAll_cons (scope : List Binder) (chain : Chain) (binders : List Binder) :
    declareAll (scope :: chain) binders = (scope ++ binders) :: chain := by
  induction binders generalizing scope with
  | nil => simp [declareAll]
  | cons binder binders ih => simpa [declareAll, declare] using ih (scope ++ [binder])

end Chain

/-- A name to be looked up, as a value or as the name of a struct type. -/
structure Site where
  id : Ident
  isType : Bool
  chain : Chain

namespace Site

/-- The symbol that the name stands for.  A type name must have a struct as its nearest
declaration. -/
def target (site : Site) : Option SymbolId :=
  ((site.chain.nearest site.id.name).filter fun binder => !site.isType || binder.isStruct).bind
    (·.id.link)

def spot (site : Site) : String × Pos × Bool := (site.id.name, site.id.pos, site.isType)

def code (site : Site) : Code := if site.isType then .unknownStruct else .undeclared

def report? (site : Site) : Option Diagnostic :=
  if site.id.link.isSome then none else some (.ofCode site.code site.id.pos)

end Site

/-! ## Sites of a tree -/

def TypeName.sites (chain : Chain) (type : TypeName) : List Site :=
  type.idents.map (⟨·, true, chain⟩)

def Expr.sites (chain : Chain) (e : Expr) : List Site :=
  e.uses.map (⟨·, false, chain⟩)

namespace VarDecl

def binder (decl : VarDecl) : Binder := { id := decl.id }

/-- The type names of declarations, each of which is followed by those after it in one scope. -/
def sites (chain : Chain) : List VarDecl → List Site
  | [] => []
  | decl :: decls => decl.type.sites chain ++ sites (chain.declare decl.binder) decls

end VarDecl

mutual

/-- The sites of a statement, each nested block of which has a scope of its own. -/
def Stmt.sites (chain : Chain) : Stmt → List Site
  | .ifThen cond body | .whileLoop cond body | .repeatLoop cond body =>
    cond.sites chain ++ body.sites ([] :: chain)
  | .ifElse cond thenBody elseBody =>
    cond.sites chain ++ thenBody.sites ([] :: chain) ++ elseBody.sites ([] :: chain)
  | .assign target value => (Expr.assign target value).sites chain
  | .increment target | .decrement target | .read target => target.sites chain
  | .write value => value.sites chain
  | .call callee args => (Expr.call callee args).sites chain
  | .ret value? _ => value?.toList.flatMap (Expr.sites chain)

def Block.sites (chain : Chain) : Block → List Site
  | ⟨decls, stmts⟩ =>
    VarDecl.sites chain decls ++ Stmt.sitesAll (chain.declareAll (decls.map VarDecl.binder)) stmts

def Stmt.sitesAll (chain : Chain) : List Stmt → List Site
  | [] => []
  | stmt :: stmts => stmt.sites chain ++ Stmt.sitesAll chain stmts

end

def FnDecl.binder (fn : FnDecl) : Binder := { id := fn.id }

/-- The sites of a function behind other top-level declarations.  The function itself is visible in
it, and the outermost locals are in one scope with the formals. -/
def FnDecl.sites (before : List Binder) (fn : FnDecl) : List Site :=
  fn.returnType.sites [before] ++
    VarDecl.sites [[], before ++ [fn.binder]] fn.formals ++
    fn.body.sites [fn.formals.map VarDecl.binder, before ++ [fn.binder]]

namespace Decl

def binder : Decl → Binder
  | .var decl => decl.binder
  | .fn decl => decl.binder
  | .struct decl => { id := decl.id, isStruct := true }

@[simp] theorem id_binder (decl : Decl) : decl.binder.id = decl.id := by
  cases decl <;> rfl

def sites (before : List Binder) : Decl → List Site
  | .var decl => decl.type.sites [before]
  | .fn decl => decl.sites before
  | .struct decl => decl.fields.flatMap (·.type.sites [before])

def sitesAll (before : List Binder) : List Decl → List Site
  | [] => []
  | decl :: decls => decl.sites before ++ sitesAll (before ++ [decl.binder]) decls

end Decl

def Program.sites (program : Program) : List Site := Decl.sitesAll [] program.decls

/-! ## Tables and chains -/

def Scope.Binds (scope : Scope) (binders : List Binder) : Prop :=
  ∀ name id, scope.lookup name = some id ↔
    ∃ binder ∈ binders, binder.id.name = name ∧ binder.id.link = some id

namespace Scope.Binds

variable {scope : Scope} {binders : List Binder}

theorem nil : Scope.Binds {} [] := by
  intro name id
  simp

theorem lookup (h : scope.Binds binders) (name : String) :
    scope.lookup name = (Binder.find? binders name).bind (·.id.link) := by
  cases hfind : Binder.find? binders name with
  | none =>
      refine Option.eq_none_iff_forall_ne_some.mpr fun id hid => ?_
      obtain ⟨binder, hbinder, hname, hlink⟩ := (h name id).mp hid
      simpa [hname, hlink] using List.find?_eq_none.mp hfind binder hbinder
  | some binder =>
      obtain ⟨hbinder, hname, id, hid⟩ := Binder.of_find? hfind
      rw [Option.bind_some, hid]
      exact (h name id).mpr ⟨binder, hbinder, hname, hid⟩

theorem reject (h : scope.Binds binders) {binder : Binder} (hlink : binder.id.link = none) :
    scope.Binds (binders ++ [binder]) := by
  intro name id
  simp [h name id, or_and_right, exists_or, hlink]

theorem accept (h : scope.Binds binders) {binder : Binder} {id : SymbolId}
    (hfree : scope.lookup binder.id.name = none) (hlink : binder.id.link = some id) :
    Scope.Binds ⟨(binder.id.name, id) :: scope.bindings⟩ (binders ++ [binder]) := by
  intro name other
  have hdefine : scope.define binder.id.name id = .ok ⟨(binder.id.name, id) :: scope.bindings⟩ :=
    Scope.define_eq_ok_iff.mpr ⟨hfree, rfl⟩
  rw [Scope.lookup_of_define hdefine]
  by_cases hname : name = binder.id.name
  · subst hname
    have hnone : ¬ ∃ b ∈ binders, b.id.name = binder.id.name ∧ b.id.link = some other := by
      rw [← h, hfree]
      simp
    simp_all
  · simp [hname, h name other, or_and_right, exists_or, Ne.symm hname]

end Scope.Binds

/-- An accepted declaration leads to a symbol, which is a struct if the declaration is. -/
def Binder.IsKnown (symbols : Arena) (binder : Binder) : Prop :=
  ∀ id, binder.id.link = some id →
    ∃ symbol, symbols.get? id = some symbol ∧ symbol.fields?.isSome = binder.isStruct

theorem Binder.IsKnown.mono {a b : Arena} {binder : Binder} (h : binder.IsKnown a)
    (hkeeps : a.Keeps b) : binder.IsKnown b := by
  intro id hid
  obtain ⟨symbol, hget, hstruct⟩ := h id hid
  obtain ⟨symbol', hget', hsame⟩ := hkeeps _ _ hget
  exact ⟨symbol', hget', hsame.fields ▸ hstruct⟩

/-- The scopes of the state bind what the chain declares. -/
structure Resolver.Mirrors (r : Resolver) (chain : Chain) : Prop where
  scopes : List.Forall₂ Scope.Binds r.table.scopes chain
  known : ∀ scope ∈ chain, ∀ binder ∈ scope, binder.IsKnown r.symbols

namespace Resolver.Mirrors

variable {r r' : Resolver} {chain : Chain} {scope : List Binder}

theorem of_keeps (h : r.Mirrors chain) (htable : r'.table = r.table)
    (hkeeps : r.symbols.Keeps r'.symbols) : r'.Mirrors chain where
  scopes := htable ▸ h.scopes
  known scope hscope binder hbinder := (h.known scope hscope binder hbinder).mono hkeeps

theorem enter (h : r.Mirrors chain) : r.enter.Mirrors ([] :: chain) where
  scopes := .cons .nil h.scopes
  known := List.forall_mem_cons.mpr ⟨by simp, h.known⟩

theorem lookup (h : r.Mirrors chain) (name : String) :
    r.table.lookup name = (chain.nearest name).bind (·.id.link) := by
  rw [SymbolTable.lookup, Chain.nearest]
  have hscopes := h.scopes
  clear h
  generalize r.table.scopes = scopes at hscopes
  induction hscopes with
  | nil => rfl
  | @cons scope binders scopes chain hscope _ ih =>
      rw [List.findSome?_cons, List.findSome?_cons, hscope.lookup]
      cases hfind : Binder.find? binders name with
      | none => simpa using ih
      | some binder =>
          obtain ⟨-, -, id, hid⟩ := Binder.of_find? hfind
          simp [hid]

theorem struct? (h : r.Mirrors chain) (name : String) :
    r.struct? name = ((chain.nearest name).filter (·.isStruct)).bind (·.id.link) := by
  rw [Resolver.struct?, h.lookup]
  cases hnearest : chain.nearest name with
  | none => rfl
  | some binder =>
      obtain ⟨scope, hscope, hfind⟩ := List.exists_of_findSome?_eq_some hnearest
      obtain ⟨hbinder, -, id, hid⟩ := Binder.of_find? hfind
      obtain ⟨symbol, hget, hstruct⟩ := h.known scope hscope binder hbinder id hid
      cases hcase : binder.isStruct <;>
        simp [hid, Option.filter, Arena.fields?, hget, hstruct, hcase]

theorem reject (h : r.Mirrors chain) {binder : Binder} (hlink : binder.id.link = none) :
    r.Mirrors (chain.declare binder) := by
  obtain ⟨hscopes, hknown⟩ := h
  cases hscopes with
  | @cons _ scope _ chain hscope hrest =>
      obtain ⟨hfirst, hchain⟩ := List.forall_mem_cons.mp hknown
      refine ⟨.cons (hscope.reject hlink) hrest, List.forall_mem_cons.mpr ⟨?_, hchain⟩⟩
      rw [List.forall_mem_append]
      exact ⟨hfirst, by simp [Binder.IsKnown, hlink]⟩

theorem accept (h : r.Mirrors chain) {binder : Binder} {symbol : Symbol}
    (hfree : r.table.lookupInnermost symbol.name = none) (hname : binder.id.name = symbol.name)
    (hlink : binder.id.link = some r.symbols.size)
    (hstruct : symbol.fields?.isSome = binder.isStruct) :
    (r.accept symbol).Mirrors (chain.declare binder) := by
  have hkeeps := (r.symbols.extends_push symbol).keeps
  obtain ⟨hscopes, hknown⟩ := h
  cases hscopes with
  | @cons _ scope _ chain hscope hrest =>
      obtain ⟨hfirst, hchain⟩ := List.forall_mem_cons.mp hknown
      refine ⟨.cons ?_ hrest, List.forall_mem_cons.mpr ⟨?_, fun scope hscope binder hbinder =>
        (hchain scope hscope binder hbinder).mono hkeeps⟩⟩
      · rw [Resolver.accept, ← hname]
        exact hscope.accept (hname ▸ hfree) hlink
      · rw [List.forall_mem_append]
        refine ⟨fun binder hbinder => (hfirst binder hbinder).mono hkeeps, ?_⟩
        rw [List.forall_mem_singleton]
        intro id hid
        cases hlink.symm.trans hid
        exact ⟨symbol, r.symbols.get?_push_size symbol, hstruct⟩

end Resolver.Mirrors

/-! ## Links and reports -/

def Diagnostic.isLookup (diagnostic : Diagnostic) : Bool :=
  diagnostic.code? == some .undeclared || diagnostic.code? == some .unknownStruct

theorem Diagnostic.isLookup_ofCode (code : Code) (pos : Pos) :
    (ofCode code pos).isLookup = (code == .undeclared || code == .unknownStruct) := by
  simp [isLookup]

/-- The sites are those that were written, each is linked to what it stands for, and those that
stand for nothing are reported. -/
structure Site.Settled (written sites : List Site) (reports : List Diagnostic) : Prop where
  spots : sites.map Site.spot = written.map Site.spot
  links : ∀ site ∈ sites, site.id.link = site.target
  reports : reports.filter Diagnostic.isLookup = sites.filterMap Site.report?

namespace Site.Settled

theorem of_others {reports : List Diagnostic} (h : reports.filter Diagnostic.isLookup = []) :
    Site.Settled [] [] reports :=
  ⟨rfl, by simp, h⟩

/-- A name that is taken is reported, but not because it was looked up. -/
theorem of_taken (taken : Bool) (pos : Pos) :
    Site.Settled [] [] (if taken then [Diagnostic.ofCode .multiplyDeclared pos] else []) := by
  refine .of_others ?_
  split <;> simp [Diagnostic.isLookup_ofCode]

theorem append {written written' sites sites' : List Site} {reports reports' : List Diagnostic}
    (h : Site.Settled written sites reports) (h' : Site.Settled written' sites' reports') :
    Site.Settled (written ++ written') (sites ++ sites') (reports ++ reports') where
  spots := by rw [List.map_append, List.map_append, h.spots, h'.spots]
  links := List.forall_mem_append.mpr ⟨h.links, h'.links⟩
  reports := by rw [List.filter_append, List.filterMap_append, h.reports, h'.reports]

end Site.Settled

namespace Resolver.Mirrors

variable {r : Resolver} {chain : Chain} (h : r.Mirrors chain)
include h

theorem target_value (id : Ident) :
    (Site.mk (id.linked r) false chain).target = r.table.lookup id.name := by
  cases hnearest : chain.nearest id.name <;>
    simp [Site.target, Ident.linked, h.lookup, hnearest, Option.filter]

theorem target_type (id : Ident) :
    (Site.mk { id with link := r.struct? id.name } true chain).target = r.struct? id.name := by
  simp [Site.target, h.struct?]

end Resolver.Mirrors

theorem TypeName.settled {r : Resolver} {chain : Chain} (h : r.Mirrors chain) (chain' : Chain)
    (type : TypeName) :
    Site.Settled (type.sites chain') ((type.linked r).sites chain) (type.reports r) := by
  cases type with
  | int | bool | void => exact .of_others rfl
  | struct id =>
      refine ⟨rfl, ?_, ?_⟩
      · simpa [linked, sites, idents] using (h.target_type id).symm
      · cases hstruct : r.struct? id.name <;>
          simp [linked, sites, idents, reports, hstruct, Site.report?, Site.code,
            Diagnostic.isLookup_ofCode]

namespace Ident

variable (r : Resolver) (id : Ident)

theorem filter_reports : (id.reports r).filter Diagnostic.isLookup = id.reports r := by
  unfold reports
  split <;> simp [Diagnostic.isLookup_ofCode]

theorem filter_fieldReports (definition? : Option SymbolId) :
    (id.fieldReports r definition?).filter Diagnostic.isLookup = [] := by
  unfold fieldReports
  split
  · rfl
  · split <;> simp [Diagnostic.isLookup_ofCode]

theorem filter_baseReports (symbol? : Option SymbolId) :
    (id.baseReports r symbol?).filter Diagnostic.isLookup = [] := by
  unfold baseReports
  split
  · rfl
  · split <;> simp [Diagnostic.isLookup_ofCode]

end Ident

namespace Expr

variable {r : Resolver} {e : Expr}

theorem filter_baseReports (hlocation : e.isLocation) (hgrammar : e.InGrammar) :
    (e.baseReports r).filter Diagnostic.isLookup = e.uses.flatMap (Ident.reports r) := by
  induction e using Expr.induction with
  | name id =>
      simp [baseReports, Ident.filter_reports, Ident.filter_baseReports, uses, nodes, use?]
  | field base id ih =>
      simp [baseReports, Ident.filter_fieldReports, Ident.filter_baseReports,
        ih hgrammar.field.1 hgrammar.field.2]
  | int _ _ | str _ _ | bool _ _ | assign _ _ | call _ _ | unary _ _ | binary _ _ _ =>
      cases hlocation

/-- The names that are looked up are reported one by one. -/
theorem filter_reports (hgrammar : e.InGrammar) :
    (e.reports r).filter Diagnostic.isLookup = e.uses.flatMap (Ident.reports r) := by
  induction e using Expr.induction with
  | int _ _ | str _ _ | bool _ _ => rfl
  | name id => simp [reports, Ident.filter_reports, uses, nodes, use?]
  | field base id _ =>
      simp [reports, Ident.filter_fieldReports,
        filter_baseReports hgrammar.field.1 hgrammar.field.2]
  | assign target value ihtarget ihvalue =>
      simp [reports, ihtarget hgrammar.assign.2.1, ihvalue hgrammar.assign.2.2]
  | call callee args ih =>
      simp only [reports, reportsAll_eq_flatMap, List.filter_append, Ident.filter_reports,
        List.filter_flatMap, uses_call, List.flatMap_cons, List.flatMap_assoc]
      congr 1
      exact List.flatMap_congr fun arg harg => ih arg harg (hgrammar.call arg harg)
  | unary op operand ih => simpa [reports] using ih hgrammar.unary
  | binary op left right ihleft ihright =>
      simp [reports, ihleft hgrammar.binary.1, ihright hgrammar.binary.2]

theorem settled {chain : Chain} (h : r.Mirrors chain) (chain' : Chain) (hgrammar : e.InGrammar) :
    Site.Settled (e.sites chain') ((e.linked r).sites chain) (e.reports r) where
  spots := by
    simp only [sites, uses_linked, List.map_map]
    rfl
  links := by
    simp only [sites, uses_linked, List.map_map, List.forall_mem_map]
    exact fun id _ => (h.target_value id).symm
  reports := by
    rw [filter_reports hgrammar, sites, uses_linked, List.map_map, List.filterMap_map,
      List.filterMap_eq_flatMap_toList]
    refine List.flatMap_congr fun id _ => ?_
    cases hlookup : r.table.lookup id.name <;>
      simp [Ident.reports, Ident.linked, hlookup, Site.report?, Site.code]

end Expr

/-! ## Declarations -/

namespace VarDecl

variable {r : Resolver} {chain : Chain}

def IsDeclaring (declare : Resolver → VarDecl → Resolver) : Prop :=
  ∀ r decl, match decl.accepted? r r.table with
    | none => declare r decl = r
    | some kind => ∃ offset, (declare r decl).table = (r.accept (decl.symbol offset kind)).table ∧
        (declare r decl).symbols = (r.accept (decl.symbol offset kind)).symbols

theorem declareGlobal_isDeclaring : IsDeclaring Resolver.declareGlobal := by
  intro r decl
  unfold Resolver.declareGlobal
  split
  · next h => simp [h]
  · next kind h => exact ⟨globalOffset, by simp [h], by simp [h]⟩

theorem declareFormal_isDeclaring : IsDeclaring Resolver.declareFormal := by
  intro r decl
  unfold Resolver.declareFormal
  split
  · next h => simp [h]
  · next kind h => exact ⟨r.frameOffset, by simp [h], by simp [h]⟩

theorem declareLocal_isDeclaring : IsDeclaring Resolver.declareLocal := by
  intro r decl
  unfold Resolver.declareLocal
  split
  · next h => simp [h]
  · next kind h => exact ⟨r.frameOffset, by simp [h], by simp [h]⟩

theorem lookupInnermost_of_accepted? {target : SymbolTable} {decl : VarDecl} {kind : SymbolKind}
    (h : decl.accepted? r target = some kind) : target.lookupInnermost decl.id.name = none := by
  unfold accepted? at h
  split at h
  · cases h
  · next hfree => simpa using hfree

theorem fields?_symbol {decl : VarDecl} {kind : SymbolKind} (h : decl.kind? r = some kind)
    (offset : Int) : (decl.symbol offset kind).fields? = none := by
  rcases kind?_cases h with ⟨rfl, _⟩ | ⟨_, _, _, _, rfl⟩ <;> rfl

theorem IsDeclaring.mirrors {declare : Resolver → VarDecl → Resolver}
    (hdeclare : IsDeclaring declare) (h : r.Mirrors chain) (decl : VarDecl) :
    (declare r decl).Mirrors (chain.declare (decl.linked r r.table).binder) := by
  have hresult := hdeclare r decl
  cases hkind : decl.accepted? r r.table with
  | none =>
      simp only [hkind] at hresult
      rw [hresult]
      exact h.reject (by simp [binder, linked, hkind])
  | some kind =>
      simp only [hkind] at hresult
      obtain ⟨offset, htable, hsymbols⟩ := hresult
      have hfields := fields?_symbol (kind?_of_accepted? hkind) offset
      have haccept : (r.accept (decl.symbol offset kind)).Mirrors
          (chain.declare (decl.linked r r.table).binder) :=
        h.accept (lookupInnermost_of_accepted? hkind) rfl (by simp [binder, linked, hkind])
          (by simp [hfields, binder])
      exact haccept.of_keeps htable (hsymbols ▸ (Arena.Extends.refl _).keeps)

theorem settled (h : r.Mirrors chain) (chain' : Chain) (target : SymbolTable) (decl : VarDecl) :
    Site.Settled (decl.type.sites chain') ((decl.linked r target).type.sites chain)
      (decl.reports r target) := by
  have htype : Site.Settled (decl.type.sites chain') ((decl.linked r target).type.sites chain)
      (decl.typeReports r) := by
    cases hdecl : decl.type with
    | void =>
        have hreport : Site.Settled [] [] [Diagnostic.ofCode .voidVariable decl.id.pos] :=
          .of_others (by simp [Diagnostic.isLookup_ofCode])
        simp only [linked, hdecl, typeReports]
        exact hreport
    | int | bool | struct _ =>
        simpa [linked, hdecl, typeReports] using TypeName.settled h chain' decl.type
  simpa [reports] using htype.append (.of_taken _ decl.id.pos)

theorem IsDeclaring.settled {declare : Resolver → VarDecl → Resolver}
    (hdeclare : IsDeclaring declare) (h : r.Mirrors chain) (chain' : Chain)
    (decls : List VarDecl) :
    Site.Settled (sites chain' decls) (sites chain (linkedAll declare r decls))
        (reportsAll declare r decls) ∧
      (decls.foldl declare r).Mirrors
        (chain.declareAll ((linkedAll declare r decls).map binder)) := by
  induction decls generalizing r chain chain' with
  | nil => exact ⟨.of_others rfl, h⟩
  | cons decl decls ih =>
      obtain ⟨hsettled, hmirrors⟩ := ih (hdeclare.mirrors h decl) _
      exact ⟨(VarDecl.settled h chain' r.table decl).append hsettled, hmirrors⟩

end VarDecl

/-! ## Statements -/

theorem Stmt.table_after (r : Resolver) (stmt : Stmt) : (stmt.after r).table = r.table := by
  cases stmt <;> rfl

theorem Resolver.Mirrors.stmt {r : Resolver} {chain : Chain} (h : r.Mirrors chain) (stmt : Stmt) :
    (stmt.after r).Mirrors chain :=
  h.of_keeps (stmt.table_after r) (Resolver.grows_isWalk.stmt stmt r).symbols.keeps

theorem Stmt.settledAll_of {stmts : List Stmt}
    (h : ∀ stmt ∈ stmts, ∀ {r : Resolver} {chain : Chain} (chain' : Chain), r.Mirrors chain →
      Site.Settled (stmt.sites chain') ((stmt.linked r).sites chain) (stmt.reports r))
    {r : Resolver} {chain : Chain} (chain' : Chain) (hr : r.Mirrors chain) :
    Site.Settled (Stmt.sitesAll chain' stmts) (Stmt.sitesAll chain (Stmt.linkedAll r stmts))
      (Stmt.reportsAll r stmts) := by
  induction stmts generalizing r with
  | nil => exact .of_others rfl
  | cons stmt stmts ih =>
      exact (h stmt (by simp) chain' hr).append
        (ih (fun other hother => h other (by simp [hother])) (hr.stmt stmt))

theorem Block.settled_of {block : Block}
    (h : ∀ stmt ∈ block.stmts, ∀ {r : Resolver} {chain : Chain} (chain' : Chain),
      r.Mirrors chain →
        Site.Settled (stmt.sites chain') ((stmt.linked r).sites chain) (stmt.reports r))
    {r : Resolver} {chain : Chain} (chain' : Chain) (hr : r.Mirrors chain) :
    Site.Settled (block.sites chain') ((block.linked r).sites chain) (block.reports r) := by
  obtain ⟨decls, stmts⟩ := block
  obtain ⟨hdecls, hinner⟩ := VarDecl.declareLocal_isDeclaring.settled hr chain' decls
  exact hdecls.append (Stmt.settledAll_of h _ hinner)

/-- The names of a statement are settled in the chain that its state mirrors. -/
theorem Stmt.settled {stmt : Stmt} (hgrammar : stmt.InGrammar) {r : Resolver} {chain : Chain}
    (chain' : Chain) (h : r.Mirrors chain) :
    Site.Settled (stmt.sites chain') ((stmt.linked r).sites chain) (stmt.reports r) := by
  induction stmt using Stmt.induction generalizing r chain chain' with
  | assign target value =>
      exact Expr.settled h chain' (hgrammar.exprs (e := .assign target value) (.head _))
  | call callee args =>
      exact Expr.settled h chain' (hgrammar.exprs (e := .call callee args) (.head _))
  | increment target | decrement target | read target | write target =>
      exact Expr.settled h chain' (hgrammar.exprs (.head _))
  | ret value? pos =>
      cases value? with
      | none => exact .of_others rfl
      | some value =>
          simpa [linked, sites, reports] using Expr.settled h chain' (hgrammar.exprs (.head _))
  | ifThen cond body ih | whileLoop cond body ih | repeatLoop cond body ih =>
      have hbody := Block.InGrammar.of_nodes body hgrammar (List.subset_cons_self _ _)
      refine (Expr.settled h chain' (hgrammar.exprs (.head _))).append ?_
      exact Block.settled_of (fun inner hinner _ _ => ih inner hinner (hbody inner hinner)) _
        h.enter
  | ifElse cond thenBody elseBody ihthen ihelse =>
      have hthen := Block.InGrammar.of_nodes thenBody hgrammar (by simp [nodes])
      have helse := Block.InGrammar.of_nodes elseBody hgrammar (by simp [nodes])
      have hbetween : ((thenBody.after r.enter).backTo r).Mirrors chain :=
        h.of_keeps rfl (Resolver.grows_isWalk.block thenBody r.enter).symbols.keeps
      refine ((Expr.settled h chain' (hgrammar.exprs (.head _))).append ?_).append ?_
      · exact Block.settled_of (fun inner hinner _ _ => ihthen inner hinner (hthen inner hinner)) _
          h.enter
      · exact Block.settled_of (fun inner hinner _ _ => ihelse inner hinner (helse inner hinner)) _
          hbetween.enter

theorem Block.settled {block : Block} (hgrammar : block.InGrammar) {r : Resolver} {chain : Chain}
    (chain' : Chain) (h : r.Mirrors chain) :
    Site.Settled (block.sites chain') ((block.linked r).sites chain) (block.reports r) :=
  Block.settled_of (fun stmt hstmt _ _ => Stmt.settled (hgrammar stmt hstmt)) chain' h

/-! ## Programs -/

namespace FnDecl

variable {r : Resolver} {before : List Binder} (h : r.Mirrors [before])
include h

theorem mirrors_named (fn : FnDecl) :
    (fn.named r).Mirrors [before ++ [(fn.linked r).binder]] := by
  unfold named
  cases htaken : fn.isTaken r with
  | true => exact h.reject (by simp [binder, linked, htaken])
  | false =>
      have hfree : r.table.lookupInnermost fn.id.name = none := by simpa [isTaken] using htaken
      exact h.accept hfree rfl (by simp [binder, linked, htaken]) rfl

theorem mirrors_after (fn : FnDecl) : (fn.after r).Mirrors [before ++ [(fn.linked r).binder]] := by
  have hwalked : (fn.walked r).Mirrors [before ++ [(fn.linked r).binder]] :=
    (mirrors_named h fn).of_keeps rfl (fn.grows_body r).symbols.keeps
  unfold after
  split
  · exact hwalked
  · exact hwalked.of_keeps rfl
      (Arena.keeps_modify _ _ fun symbol => Symbol.sameRole_withFrame symbol _ _ _)

theorem settled (before' : List Binder) {fn : FnDecl} (hgrammar : fn.body.InGrammar) :
    Site.Settled (fn.sites before') ((fn.linked r).sites before) (fn.reports r) := by
  have hopened : (fn.opened r).Mirrors [[], before ++ [(fn.linked r).binder]] :=
    (mirrors_named h fn).enter.of_keeps rfl (Arena.Extends.refl _).keeps
  obtain ⟨hformals, hinside⟩ := VarDecl.declareFormal_isDeclaring.settled hopened _ fn.formals
  rw [Chain.declareAll_cons] at hinside
  have hinside : (fn.inside r).Mirrors _ := hinside.of_keeps rfl (Arena.Extends.refl _).keeps
  have hname := (TypeName.settled h [before'] fn.returnType).append
    (.of_taken (fn.isTaken r) fn.id.pos)
  rw [List.append_nil, List.append_nil] at hname
  exact (hname.append hformals).append (Block.settled hgrammar _ hinside)

end FnDecl

namespace StructDecl

theorem fields_settled {r : Resolver} {chain : Chain} (h : r.Mirrors chain) (chain' : Chain)
    (table : SymbolTable) (offset : Int) (decls : List VarDecl) :
    Site.Settled (decls.flatMap (·.type.sites chain'))
      ((fieldsLinked r table offset decls).flatMap (·.type.sites chain))
      (fieldsReports r table offset decls) := by
  induction decls generalizing r table offset with
  | nil => exact .of_others rfl
  | cons decl decls ih =>
      rw [fieldsLinked, fieldsReports, List.flatMap_cons, List.flatMap_cons]
      refine (VarDecl.settled h chain' table decl).append ?_
      cases decl.accepted? r table with
      | none => exact ih h _ _
      | some kind =>
          have hallocated : (r.allocate (decl.symbol offset kind)).Mirrors chain :=
            h.of_keeps rfl (r.symbols.extends_push _).keeps
          exact ih hallocated _ _

variable {r : Resolver} {before : List Binder} (h : r.Mirrors [before])
include h

theorem mirrors_after (struct : StructDecl) :
    (struct.after r).Mirrors [before ++ [{ id := (struct.linked r).id, isStruct := true }]] := by
  have hwalked : (struct.walked r).Mirrors [before] :=
    h.of_keeps (struct.walked_table r) (struct.grows_walked r).symbols.keeps
  unfold after
  cases htaken : struct.isTaken r with
  | true => exact hwalked.reject (by simp [linked, htaken])
  | false =>
      have hfree : (struct.walked r).table.lookupInnermost struct.id.name = none := by
        simpa [walked_table, isTaken] using htaken
      exact hwalked.accept hfree rfl (by simp [linked, htaken]) rfl

theorem settled (before' : List Binder) (struct : StructDecl) :
    Site.Settled (struct.fields.flatMap (·.type.sites [before']))
      ((struct.linked r).fields.flatMap (·.type.sites [before])) (struct.reports r) :=
  (Site.Settled.of_taken _ _).append (fields_settled h [before'] {} 0 struct.fields)

end StructDecl

namespace Decl

variable {r : Resolver} {before : List Binder} (h : r.Mirrors [before])
include h

theorem mirrors_after (decl : Decl) :
    (decl.after r).Mirrors [before ++ [(decl.linked r).binder]] := by
  cases decl with
  | var decl => exact VarDecl.declareGlobal_isDeclaring.mirrors h decl
  | fn decl => exact decl.mirrors_after h
  | struct decl => exact decl.mirrors_after h

theorem mirrors_afterAll (decls : List Decl) :
    (afterAll r decls).Mirrors [before ++ (linkedAll r decls).map binder] := by
  induction decls generalizing r before with
  | nil => simpa [afterAll, linkedAll] using h
  | cons decl decls ih => simpa [afterAll, linkedAll] using ih (decl.mirrors_after h)

theorem settled (before' : List Binder) {decl : Decl} (hgrammar : decl.InGrammar) :
    Site.Settled (decl.sites before') ((decl.linked r).sites before) (decl.reports r) := by
  cases decl with
  | var decl => exact VarDecl.settled h [before'] r.table decl
  | fn decl => exact FnDecl.settled h before' hgrammar
  | struct decl => exact decl.settled h before'

theorem settledAll (before' : List Binder) {decls : List Decl}
    (hgrammar : ∀ decl ∈ decls, decl.InGrammar) :
    Site.Settled (sitesAll before' decls) (sitesAll before (linkedAll r decls))
      (reportsAll r decls) := by
  induction decls generalizing r before before' with
  | nil => exact .of_others rfl
  | cons decl decls ih =>
      obtain ⟨hdecl, hdecls⟩ := List.forall_mem_cons.mp hgrammar
      exact (settled h before' hdecl).append (ih (decl.mirrors_after h) _ hdecls)

end Decl

namespace Program

theorem start_mirrors (context : Context) : (Resolver.start context).Mirrors [[]] where
  scopes := .cons .nil .nil
  known := by simp

/-- In the end there is one scope, which binds the accepted top-level declarations. -/
theorem binds_after (program : Program) (context : Context) :
    (program.after context).table.enclosing = [] ∧
      (program.after context).table.innermost.Binds
        ((program.linked context).program.decls.map Decl.binder) := by
  have h : (program.after context).Mirrors _ :=
    Decl.mirrors_afterAll (start_mirrors context) program.decls
  obtain ⟨hinnermost, henclosing⟩ := List.forall₂_cons.mp h.scopes
  exact ⟨List.forall₂_nil_right_iff.mp henclosing, hinnermost⟩

/-- Every name of a program that is looked up is linked to the symbol of its nearest accepted
declaration, and reported once if it has none.  In the end only the top-level names are bound. -/
theorem resolve_nearest {program : Program} {context : Context}
    (hcontext : context.symbols.Sound) (hgrammar : program.InGrammar)
    (hunlinked : program.Unlinked) :
    ∃ resolved reports, program.resolve context = .done resolved reports ∧
      resolved.program.sites.map Site.spot = program.sites.map Site.spot ∧
      (∀ site ∈ resolved.program.sites, site.id.link = site.target) ∧
      reports.filter Diagnostic.isLookup = resolved.program.sites.filterMap Site.report? ∧
      resolved.table.depth = 1 ∧
      ∀ name id, resolved.table.lookup name = some id ↔
        ∃ decl ∈ resolved.program.decls, decl.id.name = name ∧ decl.id.link = some id := by
  refine ⟨_, _, resolve_eq hcontext hgrammar hunlinked, ?_⟩
  have hentry : Site.Settled [] []
      ((program.after context).entryReports context.options.entryPoint) := by
    refine .of_others ?_
    unfold Resolver.entryReports
    split <;> simp [Diagnostic.isLookup_ofCode]
  have hsettled := (Decl.settledAll (start_mirrors context) [] hgrammar.decl).append hentry
  rw [List.append_nil, List.append_nil] at hsettled
  obtain ⟨henclosing, hbinds⟩ := program.binds_after context
  refine ⟨hsettled.spots, hsettled.links, hsettled.reports, ?_, fun name id => ?_⟩
  · simp [Program.linked, SymbolTable.depth, henclosing]
  · have hlookup : (program.after context).table.lookup name =
        (program.after context).table.innermost.lookup name := by
      simp [SymbolTable.lookup, SymbolTable.scopes, henclosing]
    change (program.after context).table.lookup name = some id ↔ _
    rw [hlookup, hbinds name id]
    simp

/-- A function in which a formal shadows a global, a local is rejected beside the formal, and an
inner block shadows both the formal and a struct. -/
def shadowing : Program where
  decls := [
    .struct ⟨⟨"P", ⟨1, 8⟩, none⟩, [⟨.int, ⟨"v", ⟨1, 16⟩, none⟩⟩]⟩,
    .var ⟨.int, ⟨"x", ⟨2, 5⟩, none⟩⟩,
    .fn ⟨.struct ⟨"x", ⟨3, 8⟩, none⟩, ⟨"f", ⟨3, 10⟩, none⟩, [⟨.int, ⟨"x", ⟨3, 16⟩, none⟩⟩], ⟨
      [⟨.bool, ⟨"x", ⟨4, 8⟩, none⟩⟩], [
        .ifThen (.name ⟨"x", ⟨5, 7⟩, none⟩) ⟨[
          ⟨.bool, ⟨"x", ⟨6, 10⟩, none⟩⟩,
          ⟨.struct ⟨"P", ⟨7, 12⟩, none⟩, ⟨"p", ⟨7, 14⟩, none⟩⟩,
          ⟨.int, ⟨"P", ⟨8, 9⟩, none⟩⟩,
          ⟨.struct ⟨"P", ⟨9, 12⟩, none⟩, ⟨"q", ⟨9, 14⟩, none⟩⟩], [
            .assign (.name ⟨"x", ⟨10, 5⟩, none⟩) (.name ⟨"q", ⟨10, 9⟩, none⟩)]⟩,
        .call ⟨"f", ⟨12, 3⟩, none⟩ [.name ⟨"x", ⟨12, 5⟩, none⟩]]⟩⟩]

/-- The sites of the program in order: the return type, the condition, the two struct types, both
sides of the assignment, the callee and its argument. -/
theorem resolve_shadowing_nearest : ∃ resolved reports,
    shadowing.resolve {} = .done resolved reports ∧
    resolved.program.sites.map Site.target =
      [none, some 4, some 1, none, some 5, none, some 3, some 4] ∧
    reports.filter Diagnostic.isLookup =
      [.ofCode .unknownStruct ⟨3, 8⟩, .ofCode .unknownStruct ⟨9, 12⟩,
        .ofCode .undeclared ⟨10, 9⟩] := by
  have hresolve : shadowing.resolve {} =
      .done (shadowing.linked {}) (shadowing.resolutionReports {}) :=
    resolve_eq sound_empty (by decide) (by decide)
  obtain ⟨resolved, reports, h, -, hlinks, hreports, -⟩ := resolve_nearest
    (show (Context.symbols {}).Sound from sound_empty)
    (show shadowing.InGrammar by decide +kernel) (by decide +kernel)
  obtain ⟨rfl, rfl⟩ := Reporting.done.inj (hresolve.symm.trans h)
  refine ⟨_, _, hresolve, ?_, ?_⟩
  · rw [← List.map_congr_left hlinks]
    decide +kernel
  · rw [hreports]
    decide +kernel

end Program

end StackMips
