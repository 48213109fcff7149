import StackMips.Proofs.Resolution.Accounting

/-!
# One symbol for each declaration

Resolution changes nothing in a program but the links.  Each link leads to a symbol of the name that
carries it.  The links of the declarations are all different, and together they are the whole arena:
every symbol stands for one declaration that has been accepted, and has its name and its position.
-/

namespace StackMips

/-! ## Programs without their links -/

def Ident.unlink (id : Ident) : Ident := { id with link := none }

def TypeName.unlink : TypeName → TypeName
  | .struct id => .struct id.unlink
  | type => type

def VarDecl.unlink (decl : VarDecl) : VarDecl := ⟨decl.type.unlink, decl.id.unlink⟩

mutual

def Expr.unlink : Expr → Expr
  | .int value pos => .int value pos
  | .str text pos => .str text pos
  | .bool value pos => .bool value pos
  | .name id => .name id.unlink
  | .field base id => .field base.unlink id.unlink
  | .assign target value => .assign target.unlink value.unlink
  | .call callee args => .call callee.unlink (Expr.unlinkAll args)
  | .unary op operand => .unary op operand.unlink
  | .binary op left right => .binary op left.unlink right.unlink

def Expr.unlinkAll : List Expr → List Expr
  | [] => []
  | e :: es => e.unlink :: Expr.unlinkAll es

end

mutual

def Stmt.unlink : Stmt → Stmt
  | .assign target value => .assign target.unlink value.unlink
  | .increment target => .increment target.unlink
  | .decrement target => .decrement target.unlink
  | .read target => .read target.unlink
  | .write value => .write value.unlink
  | .ifThen cond body => .ifThen cond.unlink body.unlink
  | .ifElse cond thenBody elseBody => .ifElse cond.unlink thenBody.unlink elseBody.unlink
  | .whileLoop cond body => .whileLoop cond.unlink body.unlink
  | .repeatLoop count body => .repeatLoop count.unlink body.unlink
  | .call callee args => .call callee.unlink (Expr.unlinkAll args)
  | .ret value? pos => .ret (value?.map Expr.unlink) pos

def Block.unlink : Block → Block
  | ⟨decls, stmts⟩ => ⟨decls.map VarDecl.unlink, Stmt.unlinkAll stmts⟩

def Stmt.unlinkAll : List Stmt → List Stmt
  | [] => []
  | stmt :: stmts => stmt.unlink :: Stmt.unlinkAll stmts

end

def FnDecl.unlink (fn : FnDecl) : FnDecl where
  returnType := fn.returnType.unlink
  id := fn.id.unlink
  formals := fn.formals.map VarDecl.unlink
  body := fn.body.unlink

def StructDecl.unlink (struct : StructDecl) : StructDecl where
  id := struct.id.unlink
  fields := struct.fields.map VarDecl.unlink

def Decl.unlink : Decl → Decl
  | .var decl => .var decl.unlink
  | .fn decl => .fn decl.unlink
  | .struct decl => .struct decl.unlink

def Program.unlink (program : Program) : Program := ⟨program.decls.map Decl.unlink⟩

/-! ## Only links are added -/

/-- Whatever link an identifier without one is given, removing it restores the identifier. -/
theorem Ident.unlink_with_link {id : Ident} (h : id.link = none) (link : Option SymbolId) :
    Ident.unlink { id with link } = id :=
  Ident.with_link_none h

theorem TypeName.unlink_linked {type : TypeName} (h : ∀ id ∈ type.idents, id.link = none)
    (r : Resolver) : (type.linked r).unlink = type := by
  cases type with
  | int | bool | void => rfl
  | struct id =>
      have hid := Ident.unlink_with_link (h id (by simp [idents])) (r.struct? id.name)
      rw [linked, unlink, hid]

namespace VarDecl

theorem unlink_linked {decl : VarDecl} (h : ∀ id ∈ decl.idents, id.link = none) (r : Resolver)
    (target : SymbolTable) : (decl.linked r target).unlink = decl := by
  obtain ⟨htype, hid⟩ := List.forall_mem_append.mp h
  rw [linked, unlink, TypeName.unlink_linked htype, Ident.unlink_with_link (by simpa using hid)]

theorem unlink_linkedAll {decls : List VarDecl}
    (h : ∀ id ∈ decls.flatMap idents, id.link = none)
    (declare : Resolver → VarDecl → Resolver) (r : Resolver) :
    (linkedAll declare r decls).map unlink = decls := by
  induction decls generalizing r with
  | nil => rfl
  | cons decl decls ih =>
      obtain ⟨hdecl, hdecls⟩ := List.forall_mem_append.mp h
      rw [linkedAll, List.map_cons, unlink_linked hdecl, ih hdecls]

end VarDecl

namespace Expr

theorem unlinkAll_eq_map (es : List Expr) : unlinkAll es = es.map unlink := by
  induction es with
  | nil => rfl
  | cons e es ih => rw [unlinkAll, ih, List.map_cons]

theorem unlinkAll_linkedAll {es : List Expr} {r : Resolver}
    (h : ∀ e ∈ es, (e.linked r).unlink = e) : unlinkAll (linkedAll r es) = es := by
  rw [unlinkAll_eq_map, linkedAll_eq_map, List.map_map]
  exact (List.map_congr_left h).trans es.map_id

theorem unlink_linked {e : Expr} (h : ∀ id ∈ e.idents, id.link = none) (r : Resolver) :
    (e.linked r).unlink = e := by
  induction e using Expr.induction with
  | int _ _ | str _ _ | bool _ _ => rfl
  | name id =>
      rw [linked, unlink, Ident.linked, Ident.unlink_with_link (h id (by simp [idents]))]
  | field base id ih =>
      obtain ⟨hbase, hid⟩ := List.forall_mem_append.mp h
      rw [linked, unlink, ih hbase, Ident.fieldLinked, Ident.unlink_with_link (by simpa using hid)]
  | assign target value ihtarget ihvalue =>
      obtain ⟨htarget, hvalue⟩ := List.forall_mem_append.mp h
      rw [linked, unlink, ihtarget htarget, ihvalue hvalue]
  | call callee args ih =>
      simp only [idents, identsAll_eq_flatMap, List.forall_mem_cons, List.forall_mem_flatMap] at h
      rw [linked, unlink, Ident.linked, Ident.unlink_with_link h.1,
        unlinkAll_linkedAll fun arg harg => ih arg harg (h.2 arg harg)]
  | unary op operand ih => rw [linked, unlink, ih h]
  | binary op left right ihleft ihright =>
      obtain ⟨hleft, hright⟩ := List.forall_mem_append.mp h
      rw [linked, unlink, ihleft hleft, ihright hright]

end Expr

namespace Stmt

theorem unlinkAll_eq_map (stmts : List Stmt) : unlinkAll stmts = stmts.map unlink := by
  induction stmts with
  | nil => rfl
  | cons stmt stmts ih => rw [unlinkAll, ih, List.map_cons]

theorem unlinkAll_linkedAll {stmts : List Stmt}
    (h : ∀ stmt ∈ stmts, ∀ r, (stmt.linked r).unlink = stmt) (r : Resolver) :
    unlinkAll (linkedAll r stmts) = stmts := by
  induction stmts generalizing r with
  | nil => rfl
  | cons stmt stmts ih =>
      rw [linkedAll, unlinkAll, h stmt (by simp),
        ih fun other hother => h other (by simp [hother])]

theorem unlink_block_of {block : Block} (hunlinked : ∀ id ∈ block.idents, id.link = none)
    (h : ∀ stmt ∈ block.stmts, (∀ id ∈ stmt.idents, id.link = none) →
      ∀ r, (stmt.linked r).unlink = stmt) (r : Resolver) :
    (block.linked r).unlink = block := by
  obtain ⟨hdecls, hstmts⟩ := Block.unlinked_iff.mp hunlinked
  obtain ⟨decls, stmts⟩ := block
  rw [Block.linked, Block.unlink, VarDecl.unlink_linkedAll hdecls,
    unlinkAll_linkedAll fun stmt hstmt => h stmt hstmt (hstmts stmt hstmt)]

theorem unlink_linked {stmt : Stmt} (h : ∀ id ∈ stmt.idents, id.link = none) (r : Resolver) :
    (stmt.linked r).unlink = stmt := by
  induction stmt using Stmt.induction generalizing r with
  | assign target value =>
      obtain ⟨htarget, hvalue⟩ := List.forall_mem_append.mp h
      rw [linked, unlink, Expr.unlink_linked htarget, Expr.unlink_linked hvalue]
  | increment target | decrement target | read target | write target =>
      rw [linked, unlink, Expr.unlink_linked h]
  | ifThen cond body ih | whileLoop cond body ih | repeatLoop cond body ih =>
      obtain ⟨hcond, hbody⟩ := List.forall_mem_append.mp h
      rw [linked, unlink, Expr.unlink_linked hcond, unlink_block_of hbody ih]
  | ifElse cond thenBody elseBody ihthen ihelse =>
      obtain ⟨hrest, helse⟩ := List.forall_mem_append.mp h
      obtain ⟨hcond, hthen⟩ := List.forall_mem_append.mp hrest
      rw [linked, unlink, Expr.unlink_linked hcond, unlink_block_of hthen ihthen,
        unlink_block_of helse ihelse]
  | call callee args =>
      have hcall := Expr.unlink_linked (e := .call callee args) h r
      simp only [Expr.linked, Expr.unlink, Expr.call.injEq] at hcall
      rw [linked, unlink, hcall.1, hcall.2]
  | ret value? pos =>
      cases value? with
      | none => rfl
      | some value => rw [linked, unlink, Option.map_some, Option.map_some, Expr.unlink_linked h]

end Stmt

theorem FnDecl.unlink_linked {fn : FnDecl} (h : ∀ id ∈ fn.idents, id.link = none) (r : Resolver) :
    (fn.linked r).unlink = fn := by
  obtain ⟨hreturn, hid, hformals, hbody⟩ := unlinked_iff.mp h
  rw [linked, unlink, TypeName.unlink_linked hreturn, Ident.unlink_with_link hid, linkedFormals,
    VarDecl.unlink_linkedAll hformals,
    Stmt.unlink_block_of hbody fun stmt _ hstmt => Stmt.unlink_linked hstmt]

namespace StructDecl

theorem unlink_fieldsLinked {decls : List VarDecl}
    (h : ∀ id ∈ decls.flatMap VarDecl.idents, id.link = none) (r : Resolver) (table : SymbolTable)
    (offset : Int) : (fieldsLinked r table offset decls).map VarDecl.unlink = decls := by
  induction decls generalizing r table offset with
  | nil => rfl
  | cons decl decls ih =>
      obtain ⟨hdecl, hdecls⟩ := List.forall_mem_append.mp h
      rw [fieldsLinked, List.map_cons, VarDecl.unlink_linked hdecl]
      cases decl.accepted? r table with
      | none => rw [ih hdecls]
      | some kind => rw [ih hdecls]

theorem unlink_linked {struct : StructDecl} (h : ∀ id ∈ struct.idents, id.link = none)
    (r : Resolver) : (struct.linked r).unlink = struct := by
  obtain ⟨hid, hfields⟩ := List.forall_mem_cons.mp h
  rw [linked, unlink, Ident.unlink_with_link hid, unlink_fieldsLinked hfields]

end StructDecl

namespace Decl

theorem unlink_linked {decl : Decl} (h : ∀ id ∈ decl.idents, id.link = none) (r : Resolver) :
    (decl.linked r).unlink = decl := by
  cases decl with
  | var decl => rw [linked, unlink, VarDecl.unlink_linked h]
  | fn decl => rw [linked, unlink, FnDecl.unlink_linked h]
  | struct decl => rw [linked, unlink, StructDecl.unlink_linked h]

theorem unlink_linkedAll {decls : List Decl} (h : ∀ id ∈ decls.flatMap idents, id.link = none)
    (r : Resolver) : (linkedAll r decls).map unlink = decls := by
  induction decls generalizing r with
  | nil => rfl
  | cons decl decls ih =>
      obtain ⟨hdecl, hdecls⟩ := List.forall_mem_append.mp h
      rw [linkedAll, List.map_cons, unlink_linked hdecl, ih hdecls]

end Decl

/-! ## Links of declarations -/

/-- The symbol behind a link has been made for the identifier. -/
def Ident.Marks (symbols : Arena) (id : Ident) : Prop :=
  ∀ link, id.link = some link → ∃ symbol, symbols.get? link = some symbol ∧
    symbol.name = id.name ∧ symbol.pos = id.pos

theorem Ident.Marks.mono {a b : Arena} {id : Ident} (h : id.Marks a) (hkeeps : a.Keeps b) :
    id.Marks b := by
  intro link hlink
  obtain ⟨symbol, hget, hname, hpos⟩ := h link hlink
  obtain ⟨symbol', hget', hsame⟩ := hkeeps _ _ hget
  exact ⟨symbol', hget', hsame.name.trans hname, hsame.pos.trans hpos⟩

/-- What a step of resolution adds to an arena: one symbol for each of the declared identifiers that
it links, in this order.  All links of the step lead to symbols. -/
structure Arena.Adds (a b : Arena) (declared ids : List Ident) : Prop where
  keeps : a.Keeps b
  size : b.size = a.size + (declared.filterMap Ident.link).length
  links : declared.filterMap Ident.link =
    List.range' a.size (declared.filterMap Ident.link).length
  marks : ∀ id ∈ declared, id.Marks b
  points : ∀ id ∈ ids, id.PointsInto b

namespace Arena.Adds

variable {a b c : Arena} {declared declared' ids ids' : List Ident}

theorem append (hab : a.Adds b declared ids) (hbc : b.Adds c declared' ids') :
    a.Adds c (declared ++ declared') (ids ++ ids') where
  keeps := hab.keeps.trans hbc.keeps
  size := by
    rw [List.filterMap_append, List.length_append, hbc.size, hab.size]
    omega
  links := by
    rw [List.filterMap_append, List.length_append, ← List.range'_append_1, ← hab.size,
      ← hab.links, ← hbc.links]
  marks := List.forall_mem_append.mpr
    ⟨fun id hid => (hab.marks id hid).mono hbc.keeps, hbc.marks⟩
  points := List.forall_mem_append.mpr
    ⟨fun id hid => (hab.points id hid).mono hbc.keeps, hbc.points⟩

/-- Looking names up adds nothing. -/
theorem of_points (h : ∀ id ∈ ids, id.PointsInto a) : a.Adds a [] ids :=
  ⟨(Extends.refl a).keeps, rfl, rfl, by simp, h⟩

theorem of_rejected {id : Ident} (h : id.link = none) : a.Adds a [id] [id] where
  keeps := (Extends.refl a).keeps
  size := by simp [h]
  links := by simp [h]
  marks := by simp [Ident.Marks, h]
  points := by simp [Ident.PointsInto, h]

theorem of_push {id : Ident} {symbol : Symbol} (hlink : id.link = some a.size)
    (hname : symbol.name = id.name) (hpos : symbol.pos = id.pos) :
    a.Adds (a.push symbol) [id] [id] where
  keeps := (a.extends_push symbol).keeps
  size := by simp [hlink]
  links := by simp [hlink]
  marks := by simp [Ident.Marks, hlink, hname, hpos]
  points := by simp [Ident.PointsInto, Arena.Knows, hlink, hname]

/-- Changing the signature of a function adds nothing. -/
theorem of_modify (a : Arena) (id : SymbolId) {f : Symbol → Symbol}
    (hf : ∀ symbol, Symbol.SameRole symbol (f symbol)) : a.Adds (a.modify id f) [] [] :=
  ⟨a.keeps_modify id hf, by simp, rfl, by simp, by simp⟩

/-- The links of the declarations are exactly the new symbols. -/
theorem filterMap_link (h : a.Adds b declared ids) (hempty : a.size = 0) :
    declared.filterMap Ident.link = List.range b.size := by
  rw [h.links, h.size, hempty, Nat.zero_add, List.range_eq_range']

end Arena.Adds

theorem TypeName.pointsInto_linked {r : Resolver} (hr : r.Sound) (type : TypeName) :
    ∀ id ∈ (type.linked r).idents, id.PointsInto r.symbols := by
  cases type with
  | int | bool | void => simp [linked, idents]
  | struct id =>
      simp only [linked, idents, List.forall_mem_singleton]
      intro link hlink
      exact hr.table.knows_of_lookup (Option.filter_eq_some_iff.mp hlink).1

namespace VarDecl

theorem adds_of_rejected {r : Resolver} (hr : r.Sound) {target : SymbolTable} {decl : VarDecl}
    (h : decl.accepted? r target = none) :
    r.symbols.Adds r.symbols [(decl.linked r target).id] (decl.linked r target).idents :=
  (Arena.Adds.of_points (TypeName.pointsInto_linked hr decl.type)).append
    (.of_rejected (by simp [linked, h]))

theorem adds_of_accepted {r : Resolver} (hr : r.Sound) {target : SymbolTable} {decl : VarDecl}
    {kind : SymbolKind} (h : decl.accepted? r target = some kind) (offset : Int) :
    r.symbols.Adds (r.symbols.push (decl.symbol offset kind)) [(decl.linked r target).id]
      (decl.linked r target).idents :=
  (Arena.Adds.of_points (TypeName.pointsInto_linked hr decl.type)).append
    (.of_push (by simp [linked, h]) rfl rfl)

theorem IsDeclaring.adds {declare : Resolver → VarDecl → Resolver}
    (hdeclare : IsDeclaring declare) {r : Resolver} (hr : r.Sound) (decl : VarDecl) :
    r.symbols.Adds (declare r decl).symbols [(decl.linked r r.table).id]
      (decl.linked r r.table).idents := by
  have hresult := hdeclare r decl
  cases hkind : decl.accepted? r r.table with
  | none =>
      simp only [hkind] at hresult
      rw [hresult]
      exact adds_of_rejected hr hkind
  | some kind =>
      simp only [hkind] at hresult
      obtain ⟨offset, -, hsymbols⟩ := hresult
      rw [hsymbols]
      exact adds_of_accepted hr hkind offset

theorem adds_declareFormals {r : Resolver} (hr : r.Sound) (decls : List VarDecl) :
    r.symbols.Adds (r.declareFormals decls).symbols
      ((linkedAll Resolver.declareFormal r decls).map (·.id))
      ((linkedAll Resolver.declareFormal r decls).flatMap idents) := by
  induction decls generalizing r with
  | nil => exact .of_points (by simp [linkedAll])
  | cons decl decls ih =>
      exact (declareFormal_isDeclaring.adds hr decl).append
        (ih ((r.grows_declareFormal decl).sound hr))

end VarDecl

theorem Resolver.adds_isLinking : IsLinking fun r r' decls ids _ =>
    r.Grows r' ∧ (r.Sound → r.symbols.Adds r'.symbols (decls.map (·.id)) ids) where
  refl r := ⟨.refl r, fun _ => .of_points (by simp)⟩
  append hab hbc := by
    refine ⟨hab.1.trans hbc.1, fun hr => ?_⟩
    rw [List.map_append]
    exact (hab.2 hr).append (hbc.2 (hab.1.sound hr))
  expr r e _ := ⟨.refl r, fun hr => .of_points (Expr.pointsInto_linked hr e)⟩
  declareLocal r decl :=
    ⟨r.grows_declareLocal decl, fun hr => VarDecl.declareLocal_isDeclaring.adds hr decl⟩
  backTo h := ⟨h.1.backTo, fun hr => h.2 hr.enter⟩

/-! ## Declared identifiers -/

/-- The declared identifiers in the order in which their symbols are made. -/
def FnDecl.declaredIds (fn : FnDecl) : List Ident :=
  fn.id :: (fn.formals.map (·.id) ++ fn.body.locals.map (·.id))

def StructDecl.declaredIds (struct : StructDecl) : List Ident :=
  struct.fields.map (·.id) ++ [struct.id]

def Decl.declaredIds : Decl → List Ident
  | .var decl => [decl.id]
  | .fn decl => decl.declaredIds
  | .struct decl => decl.declaredIds

def Program.declaredIds (program : Program) : List Ident :=
  program.decls.flatMap Decl.declaredIds

theorem FnDecl.adds_after {r : Resolver} (hr : r.Sound) {fn : FnDecl}
    (hgrammar : fn.body.InGrammar) :
    r.symbols.Adds (fn.after r).symbols (fn.linked r).declaredIds (fn.linked r).idents := by
  have hreturn : r.symbols.Adds r.symbols [] (fn.linked r).returnType.idents :=
    .of_points (TypeName.pointsInto_linked hr fn.returnType)
  have hname : r.symbols.Adds (fn.opened r).symbols [(fn.linked r).id] [(fn.linked r).id] := by
    cases htaken : fn.isTaken r with
    | true =>
        rw [opened_of_taken htaken]
        exact .of_rejected (by simp [linked, htaken])
    | false =>
        rw [opened_eq htaken]
        exact .of_push (by simp [linked, htaken]) rfl rfl
  have hformals : (fn.opened r).symbols.Adds (fn.inside r).symbols
      ((fn.linked r).formals.map (·.id)) ((fn.linked r).formals.flatMap VarDecl.idents) :=
    VarDecl.adds_declareFormals (fn.opened_sound hr) fn.formals
  have hbody : (fn.inside r).symbols.Adds (fn.walked r).symbols
      ((fn.linked r).body.locals.map (·.id)) (fn.linked r).body.idents :=
    (Resolver.adds_isLinking.block hgrammar (fn.inside r)).2 (fn.inside_sound hr)
  have hframe : (fn.walked r).symbols.Adds (fn.after r).symbols [] [] := by
    unfold after
    split
    · exact .of_points (by simp)
    · exact .of_modify _ _ fun symbol => Symbol.sameRole_withFrame symbol _ _ _
  have h := (((hreturn.append hname).append hformals).append hbody).append hframe
  simpa [declaredIds, idents] using h

namespace StructDecl

theorem adds_fieldsAfter {r : Resolver} (hr : r.Sound) (table : SymbolTable) (offset : Int)
    (decls : List VarDecl) :
    r.symbols.Adds (fieldsAfter r table offset decls).1.symbols
      ((fieldsLinked r table offset decls).map (·.id))
      ((fieldsLinked r table offset decls).flatMap VarDecl.idents) := by
  induction decls generalizing r table offset with
  | nil => exact .of_points (by simp [fieldsLinked])
  | cons decl decls ih =>
      rw [fieldsAfter, fieldsLinked, List.map_cons, List.flatMap_cons]
      cases hkind : decl.accepted? r table with
      | none => exact (VarDecl.adds_of_rejected hr hkind).append (ih hr _ _)
      | some kind =>
          exact (VarDecl.adds_of_accepted hr hkind offset).append
            (ih (hr.allocate (VarDecl.symbol_sound hkind offset)) _ _)

theorem adds_after {r : Resolver} (hr : r.Sound) (struct : StructDecl) :
    r.symbols.Adds (struct.after r).symbols (struct.linked r).declaredIds
      (struct.linked r).idents := by
  have hfields : r.symbols.Adds (struct.walked r).symbols ((struct.linked r).fields.map (·.id))
      ((struct.linked r).fields.flatMap VarDecl.idents) :=
    adds_fieldsAfter hr {} 0 struct.fields
  have hname : (struct.walked r).symbols.Adds (struct.after r).symbols [(struct.linked r).id]
      [(struct.linked r).id] := by
    unfold after
    split
    · next htaken => exact .of_rejected (by simp [linked, htaken])
    · next htaken => exact .of_push (by simp [linked, htaken]) rfl rfl
  have h := hfields.append hname
  refine ⟨h.keeps, h.size, h.links, h.marks, fun id hid => h.points id ?_⟩
  simpa [idents, or_comm] using hid

end StructDecl

namespace Decl

theorem adds_after {r : Resolver} (hr : r.Sound) {decl : Decl} (hgrammar : decl.InGrammar) :
    r.symbols.Adds (decl.after r).symbols (decl.linked r).declaredIds (decl.linked r).idents := by
  cases decl with
  | var decl => exact VarDecl.declareGlobal_isDeclaring.adds hr decl
  | fn decl => exact FnDecl.adds_after hr hgrammar
  | struct decl => exact decl.adds_after hr

theorem adds_afterAll {decls : List Decl} (hgrammar : ∀ decl ∈ decls, decl.InGrammar)
    {r : Resolver} (hr : r.Sound) :
    r.symbols.Adds (afterAll r decls).symbols ((linkedAll r decls).flatMap declaredIds)
      ((linkedAll r decls).flatMap idents) := by
  induction decls generalizing r with
  | nil => exact .of_points (by simp [linkedAll])
  | cons decl decls ih =>
      exact (adds_after hr (hgrammar decl (by simp))).append
        (ih (fun other hother => hgrammar other (by simp [hother]))
          ((decl.grows_after r).sound hr))

end Decl

/-! ## Whole programs -/

namespace Program

/-- Resolution adds links and nothing else, and each link leads to a symbol of the same name.  The
linked declarations and the symbols of the arena correspond one to one, and a symbol has the
position of its declaration. -/
theorem resolve_adds_links {program : Program} {options : Options} (hgrammar : program.InGrammar)
    (hunlinked : program.Unlinked) :
    ∃ resolved reports, program.resolve { options } = .done resolved reports ∧
      resolved.program.unlink = program ∧
      (∀ id ∈ resolved.program.idents, ∀ link, id.link = some link → ∃ symbol,
        resolved.context.symbols.get? link = some symbol ∧ symbol.name = id.name) ∧
      (∀ id ∈ resolved.program.declaredIds, ∀ link, id.link = some link → ∃ symbol,
        resolved.context.symbols.get? link = some symbol ∧ symbol.pos = id.pos) ∧
      resolved.program.declaredIds.filterMap Ident.link =
        List.range resolved.context.symbols.size := by
  have hadds := Decl.adds_afterAll hgrammar.decl (r := .start { options })
    (Resolver.start_sound sound_empty)
  refine ⟨_, _, resolve_eq sound_empty hgrammar hunlinked, ?_, hadds.points, ?_,
    hadds.filterMap_link rfl⟩
  · rw [unlink, linked, Decl.unlink_linkedAll hunlinked]
  · intro id hid link hlink
    obtain ⟨symbol, hget, -, hpos⟩ := hadds.marks id hid link hlink
    exact ⟨symbol, hget, hpos⟩

/-- Two of the ten declarations are rejected; the others have one symbol each. -/
theorem resolve_shadowing_adds_links : ∃ resolved reports,
    shadowing.resolve {} = .done resolved reports ∧ resolved.program.unlink = shadowing ∧
      resolved.program.declaredIds.length = 10 ∧
      resolved.program.declaredIds.filterMap Ident.link = List.range 8 := by
  have hresolve : shadowing.resolve {} =
      .done (shadowing.linked {}) (shadowing.resolutionReports {}) :=
    resolve_eq sound_empty (by decide) (by decide)
  obtain ⟨resolved, reports, h, hunlink, -, -, hlinks⟩ :=
    resolve_adds_links (show shadowing.InGrammar by decide) (by decide)
  obtain ⟨rfl, rfl⟩ := Reporting.done.inj (hresolve.symm.trans h)
  have hsize : (shadowing.linked {}).context.symbols.size = 8 := by decide
  exact ⟨_, _, hresolve, hunlink, by decide, hsize ▸ hlinks⟩

end Program

end StackMips
