import StackMips.Proofs.Reading.Stmt

/-!
# A printed program has one reading

A program whose names are names and whose string literals contain no quote is read back from its
text.  So no two of them are printed alike, unless they differ only in positions and links.
-/

namespace StackMips

open Reader

@[simp]
theorem StructDecl.toList_closing : closing.toList = ['}', ';', '\n'] := rfl

/-! ## The readers -/

def StructDecl.reader : Reader StructDecl := behind "struct " fun input => do
  let (id, input) ← Ident.reader input
  let (fields, input) ← behind Block.opening (many VarDecl.begins VarDecl.reader) input
  return (⟨id, fields⟩, ← literal StructDecl.closing input)

def FnDecl.reader : Reader FnDecl := fun input => do
  let (decl, input) ← VarDecl.readFormal input
  let (formals, input) ← behind "(" (listing VarDecl.readFormal) input
  let (body, input) ← behind Block.opening (Block.reader Stmt.reader) input
  return (⟨decl.type, decl.id, formals, body⟩, input)

/-- Reads a declaration.  A struct is told from a variable or a function of its type by the brace
behind the name. -/
def Decl.reader : Reader Decl := fun input =>
  ((StructDecl.reader input).map fun (decl, rest) => (.struct decl, rest)).or
    (((FnDecl.reader input).map fun (decl, rest) => (.fn decl, rest)).or
      ((VarDecl.reader input).map fun (decl, rest) => (.var decl, rest)))

def Program.ofText? (text : String) : Option Program :=
  if text = "" then some ⟨[]⟩
  else do
    let (first, input) ← Decl.reader text.toList
    let (others, _) ← many (!·.isEmpty) (behind "\n" Decl.reader) input
    return ⟨first :: others⟩

/-! ## Declarations -/

theorem StructDecl.reader_render {struct : StructDecl}
    (hnames : ∀ id ∈ struct.idents, isName id.name) :
    StructDecl.reader.Reads struct.render.toList struct.bare fun _ => True := by
  intro rest _
  simp only [idents, List.forall_mem_cons, List.forall_mem_flatMap] at hnames
  have hbegins : VarDecl.begins (closing.toList ++ rest) = false := by
    simp [VarDecl.begins, TypeName.words, skipBlanks, word_cons, isWordChar]
  have hfields := VarDecl.many_reader_join indentStep hnames.2 hbegins
  set fields := (String.join (struct.fields.map fun field =>
    Text.blanks indentStep ++ field.render ++ "\n")).toList with hlines
  have htext : struct.render.toList ++ rest = "struct ".toList ++ (struct.id.name.toList ++
      (Block.opening.toList ++ (fields ++ (closing.toList ++ rest)))) := by
    simp [render, hlines]
  have hid := Ident.reader_name hnames.1
    (Block.opening.toList ++ (fields ++ (closing.toList ++ rest))) (by simp [isWordChar])
  rw [htext, reader, behind_append, hid]
  simp only [Option.bind_eq_bind, Option.bind_some, behind_append, hfields, literal_append]
  rfl

/-- Where a variable or a function begins, no struct is read. -/
theorem StructDecl.reader_renderFormal {decl : VarDecl}
    (hnames : ∀ id ∈ decl.idents, isName id.name) (rest : List Char) :
    StructDecl.reader (decl.renderFormal.toList ++ rest) = none := by
  cases htype : decl.type with
  | int | bool | void =>
      simp [reader, behind, literal, VarDecl.renderFormal, htype, TypeName.render,
        List.isPrefixOf?]
  | struct id =>
      simp only [VarDecl.idents, htype, TypeName.idents, List.forall_mem_append,
        List.forall_mem_singleton] at hnames
      have htext : decl.renderFormal.toList ++ rest = "struct ".toList ++ (id.name.toList ++
          ' ' :: (decl.id.name.toList ++ rest)) := by
        simp [VarDecl.renderFormal, htype, TypeName.render]
      have hid := Ident.reader_name hnames.1 (' ' :: (decl.id.name.toList ++ rest))
        (by simp [isWordChar])
      have hbrace : literal Block.opening (' ' :: (decl.id.name.toList ++ rest)) = none := by
        obtain ⟨c, cs, hchars, -, hword⟩ := exists_cons_of_isName hnames.2
        have hc : '{' ≠ c := by
          rintro rfl
          exact absurd (hword '{' (by simp)) (by decide)
        simp [literal, hchars, List.isPrefixOf?, hc]
      rw [htext, reader, behind_append, hid]
      simp only [Option.bind_eq_bind, Option.bind_some, behind, hbrace, Option.bind_none]

namespace FnDecl

def head (fn : FnDecl) : VarDecl := ⟨fn.returnType, fn.id⟩

theorem toList_render (fn : FnDecl) : fn.render.toList = fn.head.renderFormal.toList ++
    ("(".toList ++ ([',', ' '].intercalate (fn.formals.map fun decl => decl.renderFormal.toList) ++
      ')' :: (Block.opening.toList ++ (fn.body.closedAt 0).toList))) := by
  simp [render, head, VarDecl.renderFormal, Block.closedAt, Text.blanks, Function.comp_def]

theorem reader_render {fn : FnDecl} (h : Spelling fn.idents fn.body.texts) :
    FnDecl.reader.Reads fn.render.toList fn.bare fun _ => True := by
  intro rest _
  have hnames := h.names
  simp only [idents, List.forall_mem_append, List.forall_mem_flatMap] at hnames
  obtain ⟨⟨hhead, hformals⟩, hbody⟩ := hnames
  set body := (fn.body.closedAt 0).toList ++ rest with hlines
  set formals := [',', ' '].intercalate (fn.formals.map fun decl => decl.renderFormal.toList) ++
    ')' :: (Block.opening.toList ++ body) with hlist
  have htext : fn.render.toList ++ rest =
      fn.head.renderFormal.toList ++ ("(".toList ++ formals) := by
    simp [toList_render, hlist, hlines]
  have hread : VarDecl.readFormal (fn.head.renderFormal.toList ++ ("(".toList ++ formals)) =
      some (fn.head.bare, "(".toList ++ formals) :=
    VarDecl.readFormal_renderFormal (List.forall_mem_append.mpr hhead) _ (by simp [isWordChar])
  have hlisting : listing VarDecl.readFormal formals =
      some (fn.formals.map VarDecl.bare, Block.opening.toList ++ body) :=
    listing_intercalate (fun decl _ => VarDecl.avoids_renderFormal (by decide) decl)
      (fun decl hdecl => VarDecl.readFormal_renderFormal (hformals decl hdecl))
      (by simp [isWordChar]) (by simp [isWordChar]) _
  have hblock := Block.reader_render ⟨hbody, h.texts⟩ 0 rest trivial
  rw [htext, reader, hread]
  simp only [Option.bind_eq_bind, Option.bind_some, behind_append, hlisting, hlines, hblock]
  rfl

end FnDecl

theorem Decl.reader_render {decl : Decl} (h : Spelling decl.idents decl.texts) :
    Decl.reader.Reads decl.render.toList decl.bare fun _ => True := by
  intro rest _
  have hnames := h.names
  cases decl with
  | struct decl =>
      rw [reader, render, StructDecl.reader_render hnames rest trivial]
      rfl
  | fn decl =>
      have hhead : ∀ id ∈ decl.head.idents, isName id.name := by
        intro id hid
        exact hnames id (List.mem_append_left _ (List.mem_append_left _ hid))
      have hstruct : StructDecl.reader (decl.render.toList ++ rest) = none := by
        rw [FnDecl.toList_render, List.append_assoc, StructDecl.reader_renderFormal hhead]
      rw [reader, render, hstruct, FnDecl.reader_render h rest trivial]
      rfl
  | var decl =>
      have hline : render (.var decl) = Text.blanks 0 ++ decl.render ++ "\n" := by
        simp [render, Text.blanks]
      have htext : (render (.var decl)).toList ++ rest =
          decl.renderFormal.toList ++ (";\n".toList ++ rest) := by
        simp [render, VarDecl.render]
      have hstruct : StructDecl.reader ((render (.var decl)).toList ++ rest) = none := by
        rw [htext, StructDecl.reader_renderFormal hnames]
      have hfn : FnDecl.reader ((render (.var decl)).toList ++ rest) = none := by
        rw [htext, FnDecl.reader,
          VarDecl.readFormal_renderFormal hnames _ (by simp [isWordChar])]
        rfl
      have hvar := VarDecl.reader_line hnames 0 rest trivial
      rw [reader, hstruct, hfn, hline, hvar]
      rfl

theorem Decl.toList_render_ne_nil (decl : Decl) : decl.render.toList ≠ [] := by
  cases decl <;> simp [render, FnDecl.render, StructDecl.render]

/-! ## Programs -/

namespace Program

/-- Every identifier is a name, and no string literal contains the quote that ends it. -/
def Spelled (program : Program) : Prop := Spelling program.idents program.texts

instance (program : Program) : Decidable program.Spelled :=
  inferInstanceAs (Decidable (Spelling program.idents program.texts))

/-- A printed program is read back. -/
theorem ofText?_render {program : Program} (h : program.Spelled) :
    ofText? program.render = some program.bare := by
  obtain ⟨decls⟩ := program
  rw [Spelled, idents, texts_eq, Spelling.flatMap_iff] at h
  have hreader := fun decl hdecl => Decl.reader_render (h decl hdecl)
  cases decls with
  | nil => rfl
  | cons first others =>
      simp only [List.forall_mem_cons] at hreader
      have htext : (render ⟨first :: others⟩).toList = first.render.toList ++
          (others.flatMap (fun decl => "\n".toList ++ decl.render.toList) ++ []) := by
        simp [render, intercalate_cons, List.flatMap_map]
      have hne : render ⟨first :: others⟩ ≠ "" := by
        rw [ne_eq, ← String.toList_inj, htext]
        simp [first.toList_render_ne_nil]
      have hothers : many (!·.isEmpty) (behind "\n" Decl.reader)
          (others.flatMap (fun decl => "\n".toList ++ decl.render.toList) ++ []) =
            some (others.map Decl.bare, []) :=
        many_flatMap (fun _ => True) (by simp)
          (fun decl hdecl => (hreader.2 decl hdecl).behind "\n") (by simp) trivial rfl (by simp)
      rw [ofText?, if_neg hne, htext, hreader.1 _ trivial]
      simp only [Option.bind_eq_bind, Option.bind_some, hothers]
      rfl

/-- Programs are printed alike exactly if they differ in nothing but positions and links.  A line
feed in a string literal does no harm, so that only its quotes are excluded. -/
theorem render_eq_render_iff {p q : Program} (hp : p.Spelled) (hq : q.Spelled) :
    p.render = q.render ↔ p.bare = q.bare := by
  constructor
  · intro h
    have hread := ofText?_render hp
    rw [h, ofText?_render hq] at hread
    exact (Option.some.inj hread).symm
  · intro h
    rw [← p.render_bare, h, q.render_bare]

def printSuccessor (value : Expr) (pos : Pos) : Program where
  decls := [.fn ⟨.void, ⟨"main", pos, none⟩, [], ⟨[], [.write (.binary .add value (.int 1 pos))]⟩⟩]

/-- The number `-1` and the operation of sign on `1` stay apart, also in front of an operator. -/
theorem render_printSuccessor_ne :
    (printSuccessor (.int (-1) ⟨1, 1⟩) ⟨1, 1⟩).Spelled ∧
      (printSuccessor (.unary .neg (.int 1 ⟨1, 1⟩)) ⟨1, 1⟩).Spelled ∧
      (printSuccessor (.int (-1) ⟨1, 1⟩) ⟨1, 1⟩).render ≠
        (printSuccessor (.unary .neg (.int 1 ⟨1, 1⟩)) ⟨1, 1⟩).render := by
  refine ⟨by decide, by decide, fun h => ?_⟩
  have hbare := (render_eq_render_iff (by decide) (by decide)).mp h
  simp [printSuccessor, bare, Decl.bare, FnDecl.bare, Block.bare, Stmt.bare, Expr.bare] at hbare

end Program

end StackMips
