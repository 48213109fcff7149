import StackMips.Proofs.Exchange.Symbols
import StackMips.Proofs.Resolution.Passes

/-!
# Resolution after an exchange

Resolution of a tree with other names links the same identifiers to the corresponding symbols,
reports the same at the same positions and ends in a state that corresponds.
-/

namespace StackMips

/-- From states that correspond, the walk over the exchanged tree goes the same way. -/
structure Pass.Commutes {σ α : Type} (pass : Pass σ α) (R : σ → σ → Prop) (f : α → α) (tree : α) :
    Prop where
  after : ∀ s s', R s s' → R (pass.after s tree) (pass.after s' (f tree))
  linked : ∀ s s', R s s' → pass.linked s' (f tree) = f (pass.linked s tree)
  reports : ∀ s s', R s s' → pass.reports s' (f tree) = pass.reports s tree

theorem Pass.Commutes.all {σ α : Type} {pass : Pass σ α} {R : σ → σ → Prop} {f : α → α}
    {trees : List α} (h : ∀ tree ∈ trees, pass.Commutes R f tree) :
    pass.all.Commutes R (List.map f) trees := by
  induction trees with
  | nil => exact ⟨fun _ _ hs => hs, fun _ _ _ => rfl, fun _ _ _ => rfl⟩
  | cons tree trees ih =>
      obtain ⟨htree, htrees⟩ := List.forall_mem_cons.mp h
      have hrest := ih htrees
      constructor
      · intro s s' hs
        exact hrest.after _ _ (htree.after s s' hs)
      · intro s s' hs
        exact congrArg₂ List.cons (htree.linked s s' hs)
          (hrest.linked _ _ (htree.after s s' hs))
      · intro s s' hs
        exact congrArg₂ (· ++ ·) (htree.reports s s' hs)
          (hrest.reports _ _ (htree.after s s' hs))

variable {x : Exchange} {r r' : Resolver}

/-! ## Declarations of variables -/

namespace TypeName

variable {type : TypeName} (htype : x.Admits type.idents) (h : r.Corresponds x r')
include htype h

theorem linked_exchange :
    (type.mapIdents x.ident).linked r' = (type.linked r).mapIdents x.ident := by
  cases type with
  | int | bool | void => rfl
  | struct id =>
      have hid : x.admits id.name := htype id List.mem_cons_self
      simp only [mapIdents, linked, Exchange.ident, h.struct? hid]

theorem reports_exchange : (type.mapIdents x.ident).reports r' = type.reports r := by
  cases type with
  | int | bool | void => rfl
  | struct id =>
      have hid : x.admits id.name := htype id List.mem_cons_self
      simp only [mapIdents, reports, Exchange.ident, h.struct? hid, Option.isSome_map]

end TypeName

namespace VarDecl

theorem symbol_exchange (decl : VarDecl) (offset : Int) {kind kind' : SymbolKind}
    (hkind : kind.Corresponds x kind') : (decl.symbol offset kind).Corresponds x
      ((decl.mapIdents x.ident).symbol offset kind') where
  ty := decl.type.toTy_exchange
  offset := rfl
  kind := hkind

section

variable {decl : VarDecl} {target target' : SymbolTable} (hdecl : x.Admits decl.idents)
  (h : r.Corresponds x r') (htarget : target.Corresponds x target')
include hdecl h

theorem kind?_exchange : Option.Rel (SymbolKind.Corresponds x) (decl.kind? r)
    ((decl.mapIdents x.ident).kind? r') := by
  obtain ⟨type, id⟩ := decl
  cases type with
  | int | bool => exact .some .scalar
  | void => exact .none
  | struct struct =>
      have hstruct : x.admits struct.name := hdecl struct List.mem_cons_self
      simp only [kind?, mapIdents, TypeName.mapIdents, Exchange.ident, h.struct? hstruct]
      cases r.struct? struct.name with
      | none => exact .none
      | some definition => exact .some (.structInstance definition)

theorem typeReports_exchange :
    (decl.mapIdents x.ident).typeReports r' = decl.typeReports r := by
  have htype := TypeName.reports_exchange (Exchange.admits_append.mp hdecl).1 h
  obtain ⟨type, id⟩ := decl
  cases type with
  | void => rfl
  | int | bool | struct => exact htype

include htarget

omit h in
theorem isTaken_exchange : (target'.lookupInnermost (decl.mapIdents x.ident).id.name).isSome =
    (target.lookupInnermost decl.id.name).isSome := by
  have hid : x.admits decl.id.name := hdecl decl.id (by simp [idents])
  simp only [mapIdents, Exchange.ident, htarget.lookupInnermost hid, Option.isSome_map]

theorem accepted?_exchange : Option.Rel (SymbolKind.Corresponds x) (decl.accepted? r target)
    ((decl.mapIdents x.ident).accepted? r' target') := by
  rw [accepted?, accepted?, isTaken_exchange hdecl htarget]
  split
  · exact .none
  · exact kind?_exchange hdecl h

theorem match_accepted?_exchange {σ : Type} {R : σ → σ → Prop} {s s' : σ} {f f' : SymbolKind → σ}
    (hrejected : R s s')
    (haccepted : ∀ kind kind', kind.Corresponds x kind' → R (f kind) (f' kind')) :
    R (match decl.accepted? r target with
        | none => s
        | some kind => f kind)
      (match (decl.mapIdents x.ident).accepted? r' target' with
        | none => s'
        | some kind => f' kind) := by
  have hrel := accepted?_exchange hdecl h htarget
  generalize decl.accepted? r target = kind?,
    (decl.mapIdents x.ident).accepted? r' target' = kind?' at hrel
  cases hrel with
  | none => exact hrejected
  | some hkind => exact haccepted _ _ hkind

theorem reports_exchange : (decl.mapIdents x.ident).reports r' target' = decl.reports r target := by
  rw [reports, reports, isTaken_exchange hdecl htarget, typeReports_exchange hdecl h]
  rfl

theorem linked_exchange : (decl.mapIdents x.ident).linked r' target' =
    (decl.linked r target).mapIdents x.ident := by
  have htype := TypeName.linked_exchange (Exchange.admits_append.mp hdecl).1 h
  have haccepted := accepted?_exchange hdecl h htarget
  rw [linked, linked]
  generalize decl.accepted? r target = kind?,
    (decl.mapIdents x.ident).accepted? r' target' = kind?' at haccepted
  simp only [mapIdents, htype, h.symbols.size, Exchange.ident]
  cases haccepted <;> rfl

end

theorem commutes {declare : Resolver → VarDecl → Resolver}
    (hdeclare : ∀ decl r r', x.Admits decl.idents → r.Corresponds x r' →
      (declare r decl).Corresponds x (declare r' (decl.mapIdents x.ident)))
    {decls : List VarDecl} (h : ∀ decl ∈ decls, x.Admits decl.idents) :
    (pass declare).all.Commutes (Resolver.Corresponds x) (List.map (VarDecl.mapIdents x.ident))
      decls := by
  apply Pass.Commutes.all
  intro decl hdecl
  constructor
  · exact fun s s' => hdeclare decl s s' (h decl hdecl)
  · exact fun s s' hs => linked_exchange (h decl hdecl) hs hs.table
  · exact fun s s' hs => reports_exchange (h decl hdecl) hs hs.table

theorem acceptedTypes_exchange (decls : List VarDecl) :
    acceptedTypes (decls.map (mapIdents x.ident)) =
      (acceptedTypes decls).map (Ty.rename x.name) := by
  have haccepted : isAccepted ∘ mapIdents x.ident = isAccepted := by
    funext decl
    exact Option.isSome_map
  have htype : (fun decl : VarDecl => decl.type.toTy) ∘ mapIdents x.ident =
      Ty.rename x.name ∘ fun decl : VarDecl => decl.type.toTy := by
    funext decl
    exact decl.type.toTy_exchange
  rw [acceptedTypes, acceptedTypes, List.filter_map, haccepted, List.map_map, List.map_map, htype]

end VarDecl

namespace Resolver

theorem declareGlobal_exchange {decl : VarDecl} (hdecl : x.Admits decl.idents)
    (h : r.Corresponds x r') :
    (r.declareGlobal decl).Corresponds x (r'.declareGlobal (decl.mapIdents x.ident)) := by
  apply VarDecl.match_accepted?_exchange hdecl h h.table h
  intro kind kind' hkind
  exact h.accept (decl.symbol_exchange globalOffset hkind) rfl

theorem declareFormal_exchange (decl : VarDecl) (r r' : Resolver) (hdecl : x.Admits decl.idents)
    (h : r.Corresponds x r') :
    (r.declareFormal decl).Corresponds x (r'.declareFormal (decl.mapIdents x.ident)) := by
  rw [declareFormal, declareFormal, h.frameOffset]
  apply VarDecl.match_accepted?_exchange hdecl h h.table h
  intro kind kind' hkind
  have haccept := h.accept (decl.symbol_exchange r.frameOffset hkind) rfl
  exact { haccept with frameOffset := rfl }

theorem declareLocal_exchange (decl : VarDecl) (r r' : Resolver) (hdecl : x.Admits decl.idents)
    (h : r.Corresponds x r') :
    (r.declareLocal decl).Corresponds x (r'.declareLocal (decl.mapIdents x.ident)) := by
  rw [declareLocal, declareLocal, h.frameOffset, h.localWords]
  apply VarDecl.match_accepted?_exchange hdecl h h.table h
  intro kind kind' hkind
  have haccept := h.accept (decl.symbol_exchange r.frameOffset hkind) rfl
  exact { haccept with frameOffset := rfl, localWords := rfl }

end Resolver

/-! ## Expressions -/

namespace Ident

variable {id : Ident} (hid : x.admits id.name) (h : r.Corresponds x r')
include hid h

theorem linked_exchange : (x.ident id).linked r' = x.ident (id.linked r) := by
  simp only [linked, Exchange.ident, h.table.lookup hid]

theorem reports_exchange : (x.ident id).reports r' = id.reports r := by
  simp only [reports, Exchange.ident, h.table.lookup hid, Option.isSome_map]

theorem fieldLinked_exchange (definition? : Option SymbolId) :
    (x.ident id).fieldLinked r' (definition?.map x.link) =
      x.ident (id.fieldLinked r definition?) := by
  cases definition? with
  | none => rfl
  | some definition =>
      simp only [fieldLinked, Exchange.ident, Option.map_some, Option.bind_some,
        h.symbols.field? definition hid]

theorem fieldReports_exchange (definition? : Option SymbolId) :
    (x.ident id).fieldReports r' (definition?.map x.link) = id.fieldReports r definition? := by
  cases definition? with
  | none => rfl
  | some definition =>
      simp only [fieldReports, Exchange.ident, Option.map_some, h.symbols.field? definition hid,
        Option.isSome_map]

omit hid in
theorem baseReports_exchange (symbol? : Option SymbolId) :
    (x.ident id).baseReports r' (symbol?.map x.link) = id.baseReports r symbol? := by
  cases symbol? with
  | none => rfl
  | some symbol =>
      simp only [baseReports, Exchange.ident, Option.map_some, h.symbols.definition?,
        Option.isSome_map]

end Ident

/-- Going from what a name or a field is linked to on to the struct definition behind it. -/
theorem Arena.Corresponds.bind_definition? {a a' : Arena} (h : a.Corresponds x a')
    (symbol? : Option SymbolId) :
    (symbol?.map x.link).bind a'.definition? = (symbol?.bind a.definition?).map x.link := by
  cases symbol? with
  | none => rfl
  | some symbol => exact h.definition? symbol

theorem Arena.Corresponds.bind_field? {a a' : Arena} (h : a.Corresponds x a') {name : String}
    (hname : x.admits name) (definition? : Option SymbolId) :
    (definition?.map x.link).bind (a'.field? · (x.name name)) =
      (definition?.bind (a.field? · name)).map x.link := by
  cases definition? with
  | none => rfl
  | some definition => exact h.field? definition hname

namespace Expr

variable {e : Expr} (he : x.Admits e.idents) (h : r.Corresponds x r')
include he h

theorem reached_exchange : (e.mapIdents x.ident).reached r' = (e.reached r).map x.link := by
  induction e using Expr.induction with
  | int _ _ | str _ _ | bool _ _ | assign _ _ _ _ | call _ _ _ | unary _ _ _ | binary _ _ _ _ _ =>
      rfl
  | name id =>
      have hid : x.admits id.name := he id List.mem_cons_self
      rw [mapIdents, reached, reached, ← h.symbols.bind_definition?, ← h.table.lookup hid]
      rfl
  | field base id ih =>
      rw [idents, Exchange.admits_append, Exchange.admits_cons] at he
      rw [mapIdents, reached, reached, ih he.1, ← h.symbols.bind_definition?,
        ← h.symbols.bind_field? he.2.1]
      rfl

theorem baseReports_exchange : (e.mapIdents x.ident).baseReports r' = e.baseReports r := by
  induction e using Expr.induction with
  | int _ _ | str _ _ | bool _ _ | assign _ _ _ _ | call _ _ _ | unary _ _ _ | binary _ _ _ _ _ =>
      rfl
  | name id =>
      have hid : x.admits id.name := he id List.mem_cons_self
      have hlookup : r'.table.lookup (x.ident id).name = (r.table.lookup id.name).map x.link :=
        h.table.lookup hid
      rw [mapIdents, baseReports, baseReports, Ident.reports_exchange hid h, hlookup,
        Ident.baseReports_exchange h]
  | field base id ih =>
      rw [idents, Exchange.admits_append, Exchange.admits_cons] at he
      have hfield : (((base.reached r).map x.link).bind (r'.symbols.field? · (x.ident id).name)) =
          ((base.reached r).bind (r.symbols.field? · id.name)).map x.link :=
        h.symbols.bind_field? he.2.1 _
      rw [mapIdents, baseReports, baseReports, ih he.1, reached_exchange he.1 h,
        Ident.fieldReports_exchange he.2.1 h, hfield, Ident.baseReports_exchange h]

theorem linked_exchange : (e.mapIdents x.ident).linked r' = (e.linked r).mapIdents x.ident := by
  induction e using Expr.induction with
  | int _ _ | str _ _ | bool _ _ => rfl
  | name id =>
      have hid : x.admits id.name := he id List.mem_cons_self
      rw [mapIdents, linked, linked, mapIdents, Ident.linked_exchange hid h]
  | field base id ih =>
      rw [idents, Exchange.admits_append, Exchange.admits_cons] at he
      rw [mapIdents, linked, linked, mapIdents, ih he.1, reached_exchange he.1 h,
        Ident.fieldLinked_exchange he.2.1 h]
  | assign left right ihleft ihright | binary op left right ihleft ihright =>
      rw [idents, Exchange.admits_append] at he
      rw [mapIdents, linked, linked, mapIdents, ihleft he.1, ihright he.2]
  | unary op operand ih => rw [mapIdents, linked, linked, mapIdents, ih he]
  | call callee args ih =>
      rw [idents, identsAll_eq_flatMap, Exchange.admits_cons, Exchange.admits_flatMap] at he
      have hargs := List.map_congr_left fun arg harg => ih arg harg (he.2 arg harg)
      rw [mapIdents, linked, linked, mapIdents, Ident.linked_exchange he.1 h, mapIdentsAll_eq_map,
        linkedAll_eq_map, linkedAll_eq_map, mapIdentsAll_eq_map, List.map_map, List.map_map]
      exact congrArg _ hargs

theorem reports_exchange : (e.mapIdents x.ident).reports r' = e.reports r := by
  induction e using Expr.induction with
  | int _ _ | str _ _ | bool _ _ => rfl
  | name id => rw [mapIdents, reports, reports, Ident.reports_exchange (he id List.mem_cons_self) h]
  | field base id _ =>
      rw [idents, Exchange.admits_append, Exchange.admits_cons] at he
      rw [mapIdents, reports, reports, baseReports_exchange he.1 h, reached_exchange he.1 h,
        Ident.fieldReports_exchange he.2.1 h]
  | assign left right ihleft ihright | binary op left right ihleft ihright =>
      rw [idents, Exchange.admits_append] at he
      rw [mapIdents, reports, reports, ihleft he.1, ihright he.2]
  | unary op operand ih => rw [mapIdents, reports, reports, ih he]
  | call callee args ih =>
      rw [idents, identsAll_eq_flatMap, Exchange.admits_cons, Exchange.admits_flatMap] at he
      have hargs := List.flatMap_congr fun arg harg => ih arg harg (he.2 arg harg)
      rw [mapIdents, reports, reports, Ident.reports_exchange he.1 h, mapIdentsAll_eq_map,
        reportsAll_eq_flatMap, reportsAll_eq_flatMap, List.flatMap_map]
      exact congrArg _ hargs

end Expr

/-! ## Statements -/

theorem Block.commutes_of {block : Block} (h : x.Admits block.idents)
    (hstmts : ∀ stmt ∈ block.stmts, x.Admits stmt.idents →
      Stmt.pass.Commutes (Resolver.Corresponds x) (Stmt.mapIdents x.ident) stmt) :
    Block.pass.Commutes (Resolver.Corresponds x) (Block.mapIdents x.ident) block := by
  obtain ⟨decls, stmts⟩ := block
  rw [Block.idents_eq, Exchange.admits_append, Exchange.admits_flatMap,
    Exchange.admits_flatMap] at h
  have hdecls := VarDecl.commutes Resolver.declareLocal_exchange h.1
  have hstmts := Pass.Commutes.all fun stmt hstmt => hstmts stmt hstmt (h.2 stmt hstmt)
  constructor
  · intro s s' hs
    simp only [pass, mapIdents, after, (Stmt.all_eq_pass _ _).1, Stmt.mapIdentsAll_eq_map]
    exact hstmts.after _ _ (hdecls.after s s' hs)
  · intro s s' hs
    simp only [pass, mapIdents, linked, (Stmt.all_eq_pass _ _).2.1, Stmt.mapIdentsAll_eq_map,
      VarDecl.linkedAll_eq_pass]
    exact congrArg₂ Block.mk (hdecls.linked s s' hs)
      (hstmts.linked _ _ (hdecls.after s s' hs))
  · intro s s' hs
    simp only [pass, mapIdents, reports, (Stmt.all_eq_pass _ _).2.2, Stmt.mapIdentsAll_eq_map,
      VarDecl.reportsAll_eq_pass]
    exact congrArg₂ (· ++ ·) (hdecls.reports s s' hs)
      (hstmts.reports _ _ (hdecls.after s s' hs))

theorem Resolver.Corresponds.afterBody {block : Block} {s s' : Resolver}
    (hblock : Block.pass.Commutes (Resolver.Corresponds x) (Block.mapIdents x.ident) block)
    (hs : s.Corresponds x s') : ((block.after s.enter).backTo s).Corresponds x
      (((block.mapIdents x.ident).after s'.enter).backTo s') :=
  hs.backTo (hblock.after _ _ hs.enter)

theorem Stmt.commutes {stmt : Stmt} (h : x.Admits stmt.idents) :
    Stmt.pass.Commutes (Resolver.Corresponds x) (Stmt.mapIdents x.ident) stmt := by
  induction stmt using Stmt.induction with
  | assign target value =>
      rw [idents, Exchange.admits_append] at h
      constructor
      · exact fun s s' hs => hs
      · intro s s' hs
        simp only [pass, mapIdents, linked, Expr.linked_exchange h.1 hs,
          Expr.linked_exchange h.2 hs]
      · intro s s' hs
        simp only [pass, mapIdents, reports, Expr.reports_exchange h.1 hs,
          Expr.reports_exchange h.2 hs]
  | increment e | decrement e | read e | write e =>
      constructor
      · exact fun s s' hs => hs
      · exact fun s s' hs => congrArg _ (Expr.linked_exchange h hs)
      · exact fun s s' hs => Expr.reports_exchange h hs
  | ifThen cond body ih | whileLoop cond body ih | repeatLoop cond body ih =>
      rw [idents, Exchange.admits_append] at h
      have hbody := Block.commutes_of h.2 ih
      constructor
      · exact fun s s' hs => hs.afterBody hbody
      · exact fun s s' hs => congrArg₂ _ (Expr.linked_exchange h.1 hs)
          (hbody.linked _ _ hs.enter)
      · exact fun s s' hs => congrArg₂ (· ++ ·) (Expr.reports_exchange h.1 hs)
          (hbody.reports _ _ hs.enter)
  | ifElse cond thenBody elseBody ihthen ihelse =>
      rw [idents, Exchange.admits_append, Exchange.admits_append] at h
      obtain ⟨⟨hcond, hthen⟩, helse⟩ := h
      have hthen := Block.commutes_of hthen ihthen
      have helse := Block.commutes_of helse ihelse
      constructor
      · exact fun s s' hs => hs.backTo (helse.after _ _ (hs.afterBody hthen).enter)
      · intro s s' hs
        have hlinked := hthen.linked _ _ hs.enter
        have hlinked' := helse.linked _ _ (hs.afterBody hthen).enter
        simp only [Block.pass] at hlinked hlinked'
        simp only [pass, mapIdents, linked, Expr.linked_exchange hcond hs, hlinked, hlinked']
      · intro s s' hs
        have hreports := hthen.reports _ _ hs.enter
        have hreports' := helse.reports _ _ (hs.afterBody hthen).enter
        simp only [Block.pass] at hreports hreports'
        simp only [pass, mapIdents, reports, Expr.reports_exchange hcond hs, hreports, hreports']
  | call callee args =>
      rw [idents, Expr.identsAll_eq_flatMap, Exchange.admits_cons, Exchange.admits_flatMap] at h
      constructor
      · exact fun s s' hs => hs
      · intro s s' hs
        simp only [pass, mapIdents, linked, Ident.linked_exchange h.1 hs, Expr.linkedAll_eq_map,
          Expr.mapIdentsAll_eq_map, List.map_map]
        exact congrArg _ (List.map_congr_left fun arg harg =>
          Expr.linked_exchange (h.2 arg harg) hs)
      · intro s s' hs
        simp only [pass, mapIdents, reports, Ident.reports_exchange h.1 hs,
          Expr.reportsAll_eq_flatMap, Expr.mapIdentsAll_eq_map, List.flatMap_map]
        exact congrArg _ (List.flatMap_congr fun arg harg =>
          Expr.reports_exchange (h.2 arg harg) hs)
  | ret value? pos =>
      cases value? with
      | none => exact ⟨fun _ _ hs => hs, fun _ _ _ => rfl, fun _ _ _ => rfl⟩
      | some value =>
          constructor
          · exact fun s s' hs => hs
          · exact fun s s' hs =>
              congrArg (fun value => Stmt.ret (some value) pos) (Expr.linked_exchange h hs)
          · exact fun s s' hs => Expr.reports_exchange h hs

theorem Block.commutes {block : Block} (h : x.Admits block.idents) :
    Block.pass.Commutes (Resolver.Corresponds x) (Block.mapIdents x.ident) block :=
  Block.commutes_of h fun _ _ => Stmt.commutes

/-! ## Functions -/

namespace FnDecl

variable {fn : FnDecl} (hfn : x.Admits fn.idents)
include hfn

theorem admits_id : x.admits fn.id.name := hfn fn.id (by simp [idents])

theorem admits_returnType : x.Admits fn.returnType.idents := by
  simp only [idents, Exchange.admits_append] at hfn
  exact hfn.1.1.1

theorem commutes_formals : (VarDecl.pass Resolver.declareFormal).all.Commutes
    (Resolver.Corresponds x) (List.map (VarDecl.mapIdents x.ident)) fn.formals := by
  simp only [idents, Exchange.admits_append, Exchange.admits_flatMap] at hfn
  exact VarDecl.commutes Resolver.declareFormal_exchange hfn.1.2

theorem commutes_body :
    Block.pass.Commutes (Resolver.Corresponds x) (Block.mapIdents x.ident) fn.body := by
  rw [idents, Exchange.admits_append] at hfn
  exact Block.commutes hfn.2

variable (h : r.Corresponds x r')
include h

theorem isTaken_exchange : (fn.mapIdents x.ident).isTaken r' = fn.isTaken r := by
  simp only [isTaken, mapIdents, Exchange.ident, h.table.lookupInnermost (admits_id hfn),
    Option.isSome_map]

theorem named_exchange : (fn.named r).Corresponds x ((fn.mapIdents x.ident).named r') := by
  rw [named, named, isTaken_exchange hfn h]
  split
  · exact h
  · apply h.accept _ rfl
    constructor
    · simp [Symbol.ofFunction, mapIdents, TypeName.toTy_exchange, Ty.rename]
    · rfl
    · simp only [Symbol.ofFunction, mapIdents, TypeName.toTy_exchange, List.length_map]
      exact .function _

theorem opened_exchange : (fn.opened r).Corresponds x ((fn.mapIdents x.ident).opened r') :=
  { (named_exchange hfn h).enter with frameOffset := rfl, localWords := rfl }

theorem inside_exchange : (fn.inside r).Corresponds x ((fn.mapIdents x.ident).inside r') := by
  have hformals := (commutes_formals hfn).after _ _ (opened_exchange hfn h)
  exact { hformals with frameOffset := congrArg (· - linkageSize) hformals.frameOffset }

theorem linkedFormals_exchange : (fn.mapIdents x.ident).linkedFormals r' =
    (fn.linkedFormals r).map (VarDecl.mapIdents x.ident) := by
  rw [linkedFormals, linkedFormals, VarDecl.linkedAll_eq_pass, VarDecl.linkedAll_eq_pass]
  exact (commutes_formals hfn).linked _ _ (opened_exchange hfn h)

theorem walked_exchange : (fn.walked r).Corresponds x ((fn.mapIdents x.ident).walked r') :=
  (named_exchange hfn h).backTo ((commutes_body hfn).after _ _ (inside_exchange hfn h))

theorem after_exchange : (fn.after r).Corresponds x ((fn.mapIdents x.ident).after r') := by
  have hwalked := walked_exchange hfn h
  rw [after, after, isTaken_exchange hfn h]
  split
  · exact hwalked
  · rw [linkedFormals_exchange hfn h, VarDecl.acceptedTypes_exchange, hwalked.localWords,
      h.symbols.size]
    have htype : (fn.mapIdents x.ident).returnType.toTy = fn.returnType.toTy.rename x.name :=
      fn.returnType.toTy_exchange
    rw [htype]
    exact { hwalked with
      symbols := hwalked.symbols.modify _ fun _ _ hsymbol => hsymbol.withFrame _ _ _ }

theorem linked_exchange :
    (fn.mapIdents x.ident).linked r' = (fn.linked r).mapIdents x.ident := by
  have hbody := (commutes_body hfn).linked _ _ (inside_exchange hfn h)
  rw [linked, linked, linkedFormals_exchange hfn h, isTaken_exchange hfn h]
  simp only [mapIdents, TypeName.linked_exchange (admits_returnType hfn) h, h.symbols.size,
    Exchange.ident]
  congr 1
  split <;> rfl

theorem reports_exchange : (fn.mapIdents x.ident).reports r' = fn.reports r := by
  have hformals := (commutes_formals hfn).reports _ _ (opened_exchange hfn h)
  have hbody := (commutes_body hfn).reports _ _ (inside_exchange hfn h)
  rw [reports, reports, isTaken_exchange hfn h, VarDecl.reportsAll_eq_pass,
    VarDecl.reportsAll_eq_pass]
  exact congrArg₂ (· ++ ·) (congrArg₂ (· ++ ·)
    (congrArg₂ (· ++ ·) (TypeName.reports_exchange (admits_returnType hfn) h) rfl) hformals) hbody

end FnDecl

/-! ## Structs -/

namespace StructDecl

def FieldsCorrespond (x : Exchange) (s s' : Resolver × SymbolTable × Int) : Prop :=
  s.1.Corresponds x s'.1 ∧ s.2.1.Corresponds x s'.2.1 ∧ s'.2.2 = s.2.2

theorem commutes_field {decl : VarDecl} (hdecl : x.Admits decl.idents) :
    fieldPass.Commutes (FieldsCorrespond x) (VarDecl.mapIdents x.ident) decl := by
  constructor
  · rintro ⟨r, table, offset⟩ ⟨r', table', offset'⟩ ⟨hr, htable, rfl⟩
    apply VarDecl.match_accepted?_exchange hdecl hr htable ⟨hr, htable, rfl⟩
    intro kind kind' hkind
    rw [hr.symbols.size]
    exact ⟨hr.allocate (decl.symbol_exchange _ hkind), htable.extend _ _, rfl⟩
  · rintro ⟨r, table, offset⟩ ⟨r', table', offset'⟩ ⟨hr, htable, -⟩
    exact VarDecl.linked_exchange hdecl hr htable
  · rintro ⟨r, table, offset⟩ ⟨r', table', offset'⟩ ⟨hr, htable, -⟩
    exact VarDecl.reports_exchange hdecl hr htable

variable {struct : StructDecl} (hstruct : x.Admits struct.idents)
include hstruct

theorem commutes_fields : fieldPass.all.Commutes (FieldsCorrespond x)
    (List.map (VarDecl.mapIdents x.ident)) struct.fields := by
  rw [idents, Exchange.admits_cons, Exchange.admits_flatMap] at hstruct
  exact Pass.Commutes.all fun decl hdecl => commutes_field (hstruct.2 decl hdecl)

variable (h : r.Corresponds x r')
include h

theorem isTaken_exchange : (struct.mapIdents x.ident).isTaken r' = struct.isTaken r := by
  have hid : x.admits struct.id.name := hstruct struct.id List.mem_cons_self
  simp only [isTaken, mapIdents, Exchange.ident, h.table.lookupInnermost hid, Option.isSome_map]

omit hstruct in
theorem fieldsCorrespond_start : FieldsCorrespond x (r, {}, 0) (r', {}, 0) :=
  ⟨h, SymbolTable.corresponds_empty, rfl⟩

theorem walked_exchange :
    (struct.walked r).Corresponds x ((struct.mapIdents x.ident).walked r') := by
  rw [walked, walked, (fields_eq_pass _ _ _ _).1, (fields_eq_pass _ _ _ _).1]
  exact ((commutes_fields hstruct).after _ _ (fieldsCorrespond_start h)).1

theorem fieldTable_exchange :
    (struct.fieldTable r).Corresponds x ((struct.mapIdents x.ident).fieldTable r') := by
  rw [fieldTable, fieldTable, (fields_eq_pass _ _ _ _).1, (fields_eq_pass _ _ _ _).1]
  exact ((commutes_fields hstruct).after _ _ (fieldsCorrespond_start h)).2.1

theorem after_exchange :
    (struct.after r).Corresponds x ((struct.mapIdents x.ident).after r') := by
  have hwalked := walked_exchange hstruct h
  rw [after, after, isTaken_exchange hstruct h]
  split
  · exact hwalked
  · exact hwalked.accept ⟨rfl, rfl, .structDef (fieldTable_exchange hstruct h)⟩ rfl

theorem linked_exchange :
    (struct.mapIdents x.ident).linked r' = (struct.linked r).mapIdents x.ident := by
  have hfields := (commutes_fields hstruct).linked _ _ (fieldsCorrespond_start h)
  rw [linked, linked, isTaken_exchange hstruct h, (fields_eq_pass _ _ _ _).2.1,
    (fields_eq_pass _ _ _ _).2.1, (walked_exchange hstruct h).symbols.size]
  simp only [mapIdents, Exchange.ident]
  congr 1
  split <;> rfl

theorem reports_exchange : (struct.mapIdents x.ident).reports r' = struct.reports r := by
  have hfields := (commutes_fields hstruct).reports _ _ (fieldsCorrespond_start h)
  rw [reports, reports, isTaken_exchange hstruct h, (fields_eq_pass _ _ _ _).2.2,
    (fields_eq_pass _ _ _ _).2.2]
  exact congrArg₂ (· ++ ·) rfl hfields

end StructDecl

/-! ## Programs -/

theorem Decl.commutes {decl : Decl} (h : x.Admits decl.idents) :
    Decl.pass.Commutes (Resolver.Corresponds x) (Decl.mapIdents x.ident) decl := by
  cases decl with
  | var decl =>
      constructor
      · exact fun s s' hs => Resolver.declareGlobal_exchange h hs
      · exact fun s s' hs => congrArg Decl.var (VarDecl.linked_exchange h hs hs.table)
      · exact fun s s' hs => VarDecl.reports_exchange h hs hs.table
  | fn fn =>
      constructor
      · exact fun s s' hs => FnDecl.after_exchange h hs
      · exact fun s s' hs => congrArg Decl.fn (FnDecl.linked_exchange h hs)
      · exact fun s s' hs => FnDecl.reports_exchange h hs
  | struct decl =>
      constructor
      · exact fun s s' hs => StructDecl.after_exchange h hs
      · exact fun s s' hs => congrArg Decl.struct (StructDecl.linked_exchange h hs)
      · exact fun s s' hs => StructDecl.reports_exchange h hs

theorem Program.commutes {program : Program} (h : x.Admits program.idents) :
    Decl.pass.all.Commutes (Resolver.Corresponds x) (List.map (Decl.mapIdents x.ident))
      program.decls := by
  rw [Program.idents, Exchange.admits_flatMap] at h
  exact Pass.Commutes.all fun decl hdecl => Decl.commutes (h decl hdecl)

theorem Resolver.Corresponds.hasFunction (h : r.Corresponds x r') {name : String}
    (hname : x.admits name) : r'.hasFunction (x.name name) = r.hasFunction name := by
  rw [Resolver.hasFunction, Resolver.hasFunction, h.table.lookup hname]
  cases r.table.lookup name with
  | none => rfl
  | some link =>
      rw [Option.map_some, Option.bind_some, Option.bind_some, h.symbols.function?,
        Option.isSome_map]

end StackMips
