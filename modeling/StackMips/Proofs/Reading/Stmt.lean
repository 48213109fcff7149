import StackMips.Proofs.Reading.Expr

/-!
# Reading declarations and statements

Blocks are read without regard to the indentation.  A line of a block is a declaration if it begins
with the word of a type, and the block ends at a closing brace.  No statement begins with `else`, so
that word behind a block belongs to the conditional in front of it.
-/

namespace StackMips

open Reader

@[simp]
theorem Block.toList_opening : opening.toList = [' ', '{', '\n'] := rfl

@[simp]
theorem Block.toList_closing : closing.toList = ['}', '\n'] := rfl

/-! ## The readers -/

def TypeName.words : List String := ["int", "bool", "void", "struct"]

def TypeName.reader : Reader TypeName := fun input =>
  let (first, rest) := word input
  if first = "int" then some (.int, rest)
  else if first = "bool" then some (.bool, rest)
  else if first = "void" then some (.void, rest)
  else if first = "struct" then
    (behind " " Ident.reader rest).map fun (id, rest) => (.struct id, rest)
  else none

namespace VarDecl

def readFormal : Reader VarDecl := fun input => do
  let (type, input) ← TypeName.reader input
  let (id, input) ← behind " " Ident.reader input
  return (⟨type, id⟩, input)

/-- Reads a declaration on a line of its own. -/
def reader : Reader VarDecl := fun input => do
  let (decl, input) ← readFormal (skipBlanks input)
  return (decl, ← literal ";\n" input)

def begins (input : List Char) : Bool := (word (skipBlanks input)).1 ∈ TypeName.words

end VarDecl

/-- Reads a block and the brace behind it. -/
def Block.reader (inner : Reader Stmt) : Reader Block := fun input => do
  let (decls, input) ← many VarDecl.begins VarDecl.reader input
  let (stmts, input) ← many (fun input => (skipBlanks input).head? ≠ some '}') inner input
  return (⟨decls, stmts⟩, ← literal closing (skipBlanks input))

namespace Stmt

/-- Reads an expression between a fixed text and the end of the line. -/
def readLast (make : Expr → Stmt) (before : String) : Reader Stmt := behind before fun input => do
  let (e, input) ← Expr.reader input
  return (make e, ← literal ";\n" input)

/-- Reads an expression in parentheses and a block. -/
def readGuarded (inner : Reader Stmt) : Reader (Expr × Block) := behind " (" fun input => do
  let (cond, input) ← Expr.reader input
  let (body, input) ← behind (")" ++ Block.opening) (Block.reader inner) input
  return ((cond, body), input)

def readLoop (make : Expr → Block → Stmt) (inner : Reader Stmt) : Reader Stmt := fun input => do
  let ((e, body), input) ← readGuarded inner input
  return (make e body, input)

def readConditional (inner : Reader Stmt) : Reader Stmt := fun input => do
  let ((cond, body), input) ← readGuarded inner input
  let (next, input') := word (skipBlanks input)
  if next = "else" then
    let (elseBody, input) ← behind Block.opening (Block.reader inner) input'
    return (.ifElse cond body elseBody, input)
  else return (.ifThen cond body, input)

def readReturn : Reader Stmt := fun input =>
  if input.head? = some ';' then
    (literal ";\n" input).map (.ret none Pos.nowhere, ·)
  else readLast (fun value => .ret (some value) Pos.nowhere) " " input

/-- The readers of the statements that begin with a word of their own. -/
def byWord (inner : Reader Stmt) : List (String × Reader Stmt) :=
  [("cin", readLast .read " >> "), ("cout", readLast .write " << "), ("if", readConditional inner),
    ("while", readLoop .whileLoop inner), ("repeat", readLoop .repeatLoop inner),
    ("return", readReturn)]

def readEffect (e : Expr) : Reader Stmt := fun input =>
  match input, e with
  | ' ' :: _, _ => readLast (.assign e) " = " input
  | '+' :: _, _ => (literal "++;\n" input).map (.increment e, ·)
  | '-' :: _, _ => (literal "--;\n" input).map (.decrement e, ·)
  | _, .call callee args => (literal ";\n" input).map (.call callee args, ·)
  | _, _ => none

def readLine (inner : Reader Stmt) : Reader Stmt := fun input =>
  match (byWord inner).lookup (word input).1 with
  | some reader => reader (word input).2
  | none => do
    let (e, input) ← Expr.reader input
    readEffect e input

/-- Reads a statement in which blocks are nested at most so deep. -/
def readAt : Nat → Reader Stmt
  | 0, _ => none
  | depth + 1, input => readLine (readAt depth) (skipBlanks input)

def reader : Reader Stmt := fun input => readAt input.length input

end Stmt

/-! ## Declarations -/

theorem TypeName.reader_render {type : TypeName} (hnames : ∀ id ∈ type.idents, isName id.name) :
    TypeName.reader.Reads type.render.toList type.bare (Avoids isWordChar) := by
  intro rest hrest
  cases type with
  | int | bool | void =>
      rw [TypeName.reader, TypeName.render, word_append (by decide) hrest]
      rfl
  | struct id =>
      have hid := hnames id (by simp [idents])
      have htext : (render (.struct id)).toList ++ rest =
          "struct".toList ++ (' ' :: id.name.toList ++ rest) := by
        simp [render]
      rw [htext, TypeName.reader, word_append (by decide) (by simp [isWordChar])]
      simpa [bare] using (Ident.reader_name hid).behind " " rest hrest

namespace VarDecl

theorem readFormal_renderFormal {decl : VarDecl} (hnames : ∀ id ∈ decl.idents, isName id.name) :
    readFormal.Reads decl.renderFormal.toList decl.bare (Avoids isWordChar) := by
  intro rest hrest
  simp only [idents, List.forall_mem_append, List.forall_mem_singleton] at hnames
  have htext : decl.renderFormal.toList ++ rest =
      decl.type.render.toList ++ (" ".toList ++ decl.id.name.toList ++ rest) := by
    simp [renderFormal]
  have htype := TypeName.reader_render hnames.1 (" ".toList ++ decl.id.name.toList ++ rest)
    (by simp [isWordChar])
  have hid := (Ident.reader_name hnames.2).behind " " rest hrest
  simp only [htext, readFormal, htype, hid, Option.bind_eq_bind, Option.bind_some]
  rfl

theorem toList_line (indent : Nat) (decl : VarDecl) :
    (Text.blanks indent ++ decl.render ++ "\n").toList =
      (Text.blanks indent).toList ++ (decl.renderFormal.toList ++ [';', '\n']) := by
  simp [render]

theorem word_renderFormal_mem (decl : VarDecl) (rest : List Char) :
    (word (decl.renderFormal.toList ++ rest)).1 ∈ TypeName.words := by
  cases htype : decl.type <;>
    simp [renderFormal, htype, TypeName.render, TypeName.words, word, isWordChar]

theorem avoids_renderFormal {c : Char} (hc : Expr.opens c = false) (decl : VarDecl)
    (rest : List Char) : Avoids (· == c) (decl.renderFormal.toList ++ rest) := by
  have hbegins : Begins Expr.opens decl.renderFormal.toList := by
    cases htype : decl.type <;> simp [renderFormal, htype, TypeName.render, Expr.opens, isWordChar]
  exact Expr.avoids_of_opens c hc (hbegins.append rest)

theorem reader_line {decl : VarDecl} (hnames : ∀ id ∈ decl.idents, isName id.name) (indent : Nat) :
    reader.Reads (Text.blanks indent ++ decl.render ++ "\n").toList decl.bare fun _ => True := by
  intro rest _
  have hformal := readFormal_renderFormal hnames (';' :: '\n' :: rest) (by simp [isWordChar])
  rw [toList_line, List.append_assoc, List.append_assoc, reader,
    skipBlanks_blanks_append indent (avoids_renderFormal (by decide) decl _)]
  simp only [List.cons_append, List.nil_append, hformal, Option.bind_eq_bind, Option.bind_some]
  rfl

theorem many_reader_join (indent : Nat) {decls : List VarDecl}
    (hnames : ∀ decl ∈ decls, ∀ id ∈ decl.idents, isName id.name) {rest : List Char}
    (hrest : begins rest = false) :
    many begins reader ((String.join (decls.map fun decl =>
      Text.blanks indent ++ decl.render ++ "\n")).toList ++ rest) =
        some (decls.map bare, rest) := by
  rw [String.toList_join, List.flatMap_map]
  refine many_flatMap (fun _ => True) ?_ (fun decl hdecl => reader_line (hnames decl hdecl) indent)
    (by simp) trivial hrest (by simp)
  intro decl _ input
  rw [toList_line, List.append_assoc, begins, List.append_assoc,
    skipBlanks_blanks_append indent (avoids_renderFormal (by decide) decl _)]
  exact decide_eq_true (word_renderFormal_mem decl _)

end VarDecl

/-! ## Spelling -/

def Stmt.Spelled (stmt : Stmt) : Prop := Spelling stmt.idents stmt.texts

def Block.Spelled (block : Block) : Prop := Spelling block.idents block.texts

theorem Block.spelled_iff (block : Block) : block.Spelled ↔
    Spelling (block.decls.flatMap VarDecl.idents) [] ∧ ∀ stmt ∈ block.stmts, stmt.Spelled := by
  have htexts : block.texts = [] ++ block.stmts.flatMap Stmt.texts := block.texts_eq
  rw [Spelled, idents_eq, htexts, Spelling.append_iff, Spelling.flatMap_iff]
  rfl

theorem Stmt.idents_eq (stmt : Stmt) :
    stmt.idents = stmt.exprs.flatMap Expr.idents ++ stmt.bodies.flatMap Block.idents := by
  cases stmt with
  | ret value? pos => cases value? <;> simp [idents, exprs, bodies]
  | _ => simp [idents, exprs, bodies, Expr.idents]

theorem Stmt.spelled_iff (stmt : Stmt) : stmt.Spelled ↔
    (∀ e ∈ stmt.exprs, e.Spelled) ∧ ∀ body ∈ stmt.bodies, body.Spelled := by
  rw [Spelled, idents_eq, texts_eq, Spelling.append_iff, Spelling.flatMap_iff,
    Spelling.flatMap_iff]
  rfl

theorem Expr.spelled_assign {target value : Expr} :
    (assign target value).Spelled ↔ target.Spelled ∧ value.Spelled := by
  rw [Spelled, idents, texts_assign, Spelling.append_iff]
  rfl

/-! ## First words -/

namespace Expr

/-- The keywords with which no expression begins. -/
def foreign : List String :=
  ["int", "bool", "void", "struct", "if", "else", "while", "repeat", "return", "cin", "cout"]

theorem foreign_subset : foreign ⊆ keywords := by
  decide

theorem word_render_not_mem {e : Expr} (hnames : ∀ id ∈ e.idents, isName id.name)
    {rest : List Char} (hrest : Avoids isWordChar rest) :
    (word (e.render.toList ++ rest)).1 ∉ foreign := by
  induction e using Expr.induction generalizing rest with
  | int value pos =>
      rw [render]
      cases value.toInt with
      | ofNat n =>
          have hforeign : ∀ text ∈ foreign, ¬text.toList.all Char.isDigit := by decide
          rw [show toString (Int.ofNat n) = n.repr from rfl, word_repr_append n hrest]
          exact fun h => hforeign _ h (all_isDigit_repr n)
      | negSucc n =>
          rw [toList_toString_negSucc, List.cons_append, word_cons rfl]
          simp [foreign]
  | bool value pos =>
      rw [word_bool_append value pos hrest, render]
      cases value <;> simp [foreign]
  | name id =>
      have hid := hnames id (by simp [idents])
      rw [render, word_name_append hid hrest]
      exact fun h => not_mem_keywords_of_isName hid (foreign_subset h)
  | field base id ih =>
      simp only [idents, List.forall_mem_append] at hnames
      rw [toList_render_field, List.append_assoc]
      exact ih hnames.1 (by simp [isWordChar])
  | call callee args ih =>
      have hcallee := hnames callee (by simp [idents])
      rw [toList_render_call, List.append_assoc, word_name_append hcallee (by simp [isWordChar])]
      exact fun h => not_mem_keywords_of_isName hcallee (foreign_subset h)
  | str _ _ | assign _ _ _ _ | unary _ _ _ | binary _ _ _ _ _ =>
      simp [render, word_cons, isWordChar, foreign]

end Expr

namespace Stmt

/-- A text of lines of which the first begins like an expression or with a word, but neither with
the word of a type nor with `else`. -/
def Heads (text : String) : Prop :=
  ∃ n line, text = Text.blanks n ++ line ∧ Begins Expr.opens line.toList ∧
    ∀ rest, (word (line.toList ++ rest)).1 ∉ "else" :: TypeName.words

/-- The text is not the second branch of the conditional in front of it. -/
def Stops (rest : List Char) : Prop := (word (skipBlanks rest)).1 ≠ "else"

namespace Heads

variable {text : String}

theorem append (h : Heads text) (more : String) : Heads (text ++ more) := by
  obtain ⟨n, line, rfl, hbegins, hword⟩ := h
  refine ⟨n, line ++ more, String.append_assoc .., ?_, fun rest => ?_⟩
  · rw [String.toList_append]
    exact hbegins.append _
  · rw [String.toList_append, List.append_assoc]
    exact hword _

theorem skipBlanks_append (h : Heads text) (rest : List Char) :
    Begins Expr.opens (skipBlanks (text.toList ++ rest)) ∧
      (word (skipBlanks (text.toList ++ rest))).1 ∉ "else" :: TypeName.words := by
  obtain ⟨n, line, rfl, hbegins, hword⟩ := h
  have hblank := Expr.avoids_of_opens ' ' (by decide) (hbegins.append rest)
  rw [String.toList_append, List.append_assoc, skipBlanks_blanks_append n hblank]
  exact ⟨hbegins.append rest, hword rest⟩

theorem begins_eq_false (h : Heads text) (rest : List Char) :
    VarDecl.begins (text.toList ++ rest) = false := by
  have hword := (h.skipBlanks_append rest).2
  simp_all [VarDecl.begins]

theorem stops (h : Heads text) (rest : List Char) : Stops (text.toList ++ rest) := by
  have hword := (h.skipBlanks_append rest).2
  simp_all [Stops]

theorem head?_ne (h : Heads text) (rest : List Char) :
    (skipBlanks (text.toList ++ rest)).head? ≠ some '}' := by
  intro hclose
  obtain ⟨c, hc, hopens⟩ := (h.skipBlanks_append rest).1
  obtain rfl := Option.some.inj (hc.symm.trans hclose)
  exact absurd hopens (by decide)

theorem ne_nil (h : Heads text) : text.toList ≠ [] := by
  obtain ⟨n, line, rfl, hbegins, -⟩ := h
  simpa using fun _ => hbegins.ne_nil

theorem of_word (n : Nat) (h : text ∈ ["cin >> ", "cout << ", "if (", "while (", "repeat (",
    "return ", "return;\n"]) : Heads (Text.blanks n ++ text) := by
  simp only [List.mem_cons, List.not_mem_nil, or_false] at h
  refine ⟨n, text, rfl, ?_, fun rest => ?_⟩
  · rcases h with rfl | rfl | rfl | rfl | rfl | rfl | rfl <;> simp [Expr.opens, isWordChar]
  · rcases h with rfl | rfl | rfl | rfl | rfl | rfl | rfl <;>
      simp [word, isWordChar, TypeName.words]

theorem of_expr (n : Nat) {e : Expr} (h : e.Spelled) {line : String}
    (hline : Begins (fun c => !isWordChar c) line.toList) :
    Heads (Text.blanks n ++ e.render ++ line) := by
  refine ⟨n, e.render ++ line, String.append_assoc .., ?_, fun rest hword => ?_⟩
  · rw [String.toList_append]
    exact (Expr.begins_render h.names).append _
  · have hstop := hline.avoids_append rest
    rw [String.toList_append, List.append_assoc] at hword
    have hforeign : "else" :: TypeName.words ⊆ Expr.foreign := by decide
    exact Expr.word_render_not_mem h.names hstop (hforeign hword)

end Heads

theorem heads_renderAt {stmt : Stmt} (h : stmt.Spelled) (indent : Nat) :
    Heads (stmt.renderAt indent) := by
  have hexprs := ((spelled_iff stmt).mp h).1
  -- the front of the text up to the first character that is not of a word decides
  cases stmt with
  | assign target value =>
      have hassign := Expr.spelled_assign.mp (hexprs (.assign target value) (by simp [exprs]))
      exact .append (.append (.of_expr indent hassign.1 (by simp [isWordChar])) _) _
  | increment _ | decrement _ | call _ _ =>
      exact .of_expr indent (hexprs _ (by simp [exprs])) (by simp [isWordChar])
  | read _ | write _ =>
      rw [renderAt]
      exact .append (.append (.of_word indent (by decide)) _) _
  | ifThen _ _ | whileLoop _ _ | repeatLoop _ _ =>
      rw [renderAt]
      iterate 6 apply Heads.append
      exact .of_word indent (by decide)
  | ifElse cond thenBody elseBody =>
      rw [renderAt]
      iterate 12 apply Heads.append
      exact .of_word indent (by decide)
  | ret value? _ =>
      cases value? with
      | none => exact .of_word indent (by decide)
      | some _ =>
          rw [renderAt]
          exact .append (.append (.of_word indent (by decide)) _) _

end Stmt

/-! ## Blocks -/

namespace Block

/-- The lines of a block in a text that is indented so, and the brace behind them. -/
def closedAt (indent : Nat) (block : Block) : String :=
  block.renderAt (indent + indentStep) ++ Text.blanks indent ++ closing

theorem toList_closedAt (indent : Nat) (block : Block) : (block.closedAt indent).toList =
    (String.join (block.decls.map fun decl =>
      Text.blanks (indent + indentStep) ++ decl.render ++ "\n")).toList ++
      (block.stmts.flatMap (fun stmt => (stmt.renderAt (indent + indentStep)).toList) ++
        ((Text.blanks indent).toList ++ ['}', '\n'])) := by
  simp [closedAt, renderAt_eq, List.flatMap_map]

theorem begins_flatMap_eq_false {stmts : List Stmt} {text : Stmt → String}
    (h : ∀ stmt ∈ stmts, Stmt.Heads (text stmt)) {rest : List Char}
    (hrest : VarDecl.begins rest = false) :
    VarDecl.begins (stmts.flatMap (fun stmt => (text stmt).toList) ++ rest) = false := by
  cases stmts with
  | nil => exact hrest
  | cons stmt stmts =>
      rw [List.flatMap_cons, List.append_assoc]
      exact (h stmt (by simp)).begins_eq_false _

/-- A block is read back if its statements are. -/
theorem reader_closedAt {block : Block} (h : block.Spelled) {indent : Nat} {inner : Reader Stmt}
    (hstmts : ∀ stmt ∈ block.stmts,
      inner.Reads (stmt.renderAt (indent + indentStep)).toList stmt.bare Stmt.Stops) :
    (Block.reader inner).Reads (block.closedAt indent).toList block.bare fun _ => True := by
  intro rest _
  rw [spelled_iff] at h
  have hheads := fun stmt hstmt => Stmt.heads_renderAt (h.2 stmt hstmt) (indent + indentStep)
  set close := (Text.blanks indent).toList ++ '}' :: '\n' :: rest with hclose
  have hskip : skipBlanks close = '}' :: '\n' :: rest :=
    skipBlanks_blanks_append indent (by simp)
  have hword : (word (skipBlanks close)).1 = "" := by
    rw [hskip, word_cons rfl]
  have hbegins : VarDecl.begins close = false := by
    simp [VarDecl.begins, TypeName.words, hword]
  -- the declarations end where a statement begins, or at the brace
  have hdecls := VarDecl.many_reader_join (indent + indentStep)
    (List.forall_mem_flatMap.mp h.1.names) (begins_flatMap_eq_false hheads hbegins)
  have hmany : many (fun input => (skipBlanks input).head? ≠ some '}') inner
      (block.stmts.flatMap (fun stmt => (stmt.renderAt (indent + indentStep)).toList) ++ close) =
        some (block.stmts.map Stmt.bare, close) := by
    refine many_flatMap Stmt.Stops ?_ hstmts ?_ (by simp [Stmt.Stops, hword]) (by simp [hskip]) ?_
    · exact fun stmt hstmt input => decide_eq_true ((hheads stmt hstmt).head?_ne input)
    · exact fun stmt hstmt => (hheads stmt hstmt).stops
    · exact fun stmt hstmt => (hheads stmt hstmt).ne_nil
  rw [toList_closedAt, List.append_assoc, List.append_assoc, List.append_assoc, reader]
  simp only [List.cons_append, List.nil_append, ← hclose, hdecls, hmany, hskip, bare_eq,
    Option.bind_eq_bind, Option.bind_some]
  rfl

end Block

/-! ## Statements -/

namespace Stmt

def IsReadBack (stmt : Stmt) : Prop :=
  ∀ indent depth, (stmt.renderAt indent).toList.length ≤ depth →
    (readAt depth).Reads (stmt.renderAt indent).toList stmt.bare Stops

theorem length_le_length_closedAt {block : Block} {stmt : Stmt} (h : stmt ∈ block.stmts)
    (indent : Nat) :
    (stmt.renderAt (indent + indentStep)).toList.length ≤
      (block.closedAt indent).toList.length := by
  have hstmt : (stmt.renderAt (indent + indentStep)).toList.length ≤
      (block.stmts.flatMap fun stmt => (stmt.renderAt (indent + indentStep)).toList).length := by
    rw [List.flatMap_def]
    refine List.Sublist.length_le (List.sublist_flatten_of_mem ?_)
    exact List.mem_map.mpr ⟨stmt, h, rfl⟩
  rw [Block.toList_closedAt, List.length_append, List.length_append]
  omega

/-- The text of a block is at least as long as those of its statements, so that it bounds the depth
of all of them. -/
theorem reader_body {block : Block} (h : block.Spelled)
    (hstmts : ∀ stmt ∈ block.stmts, stmt.Spelled → stmt.IsReadBack) {indent depth : Nat}
    (hdepth : (block.closedAt indent).toList.length ≤ depth) :
    (Block.reader (readAt depth)).Reads (block.closedAt indent).toList block.bare
      fun _ => True := by
  refine Block.reader_closedAt h fun stmt hstmt => ?_
  have hspelled := ((Block.spelled_iff block).mp h).2 stmt hstmt
  exact hstmts stmt hstmt hspelled _ depth ((length_le_length_closedAt hstmt indent).trans hdepth)

theorem readLast_append (make : Expr → Stmt) (before : String) {e : Expr} (h : e.Spelled) :
    (readLast make before).Reads (before.toList ++ (e.render.toList ++ [';', '\n'])) (make e.bare)
      Stops := by
  intro rest _
  have he := Expr.reader_render h (';' :: '\n' :: rest) (by simp [isWordChar])
  rw [List.append_assoc, List.append_assoc, readLast, behind_append, List.cons_append,
    List.cons_append, List.nil_append, he]
  rfl

theorem readReturn_append {value : Expr} (h : value.Spelled) :
    readReturn.Reads (" ".toList ++ (value.render.toList ++ [';', '\n']))
      (.ret (some value.bare) Pos.nowhere) Stops := by
  intro rest hrest
  rw [readReturn, if_neg (by simp)]
  exact readLast_append (fun value => .ret (some value) Pos.nowhere) " " h rest hrest

/-- An expression in parentheses, and a text behind a brace. -/
def guarded (e : Expr) (text : List Char) : List Char :=
  " (".toList ++ (e.render.toList ++ ((")" ++ Block.opening).toList ++ text))

theorem length_le_length_guarded (e : Expr) (text : List Char) :
    text.length ≤ (guarded e text).length := by
  simp only [guarded, List.length_append]
  omega

section

variable {inner : Reader Stmt} {e : Expr} {text : List Char} {body : Block}

theorem readGuarded_guarded (h : e.Spelled)
    (hbody : (Block.reader inner).Reads text body fun _ => True) :
    (readGuarded inner).Reads (guarded e text) (e.bare, body) fun _ => True := by
  intro rest _
  have he := Expr.reader_render h ((")" ++ Block.opening).toList ++ (text ++ rest))
    (by simp [isWordChar])
  rw [guarded, List.append_assoc, List.append_assoc, List.append_assoc, readGuarded, behind_append,
    he]
  simp only [Option.bind_eq_bind, Option.bind_some, behind_append, hbody rest trivial]
  rfl

theorem readLoop_guarded (make : Expr → Block → Stmt) (h : e.Spelled)
    (hbody : (Block.reader inner).Reads text body fun _ => True) :
    (readLoop make inner).Reads (guarded e text) (make e.bare body) Stops := by
  intro rest _
  rw [readLoop, readGuarded_guarded h hbody rest trivial]
  rfl

theorem readConditional_guarded (h : e.Spelled)
    (hbody : (Block.reader inner).Reads text body fun _ => True) :
    (readConditional inner).Reads (guarded e text) (.ifThen e.bare body) Stops := by
  intro rest hrest
  rw [readConditional, readGuarded_guarded h hbody rest trivial]
  -- here it counts that what follows is not `else`
  exact if_neg hrest

/-- The word `else` behind a block opens the second branch. -/
theorem readConditional_else (h : e.Spelled)
    (hbody : (Block.reader inner).Reads text body fun _ => True) {elseText : List Char}
    {elseBody : Block} (helse : (Block.reader inner).Reads elseText elseBody fun _ => True)
    (n : Nat) : (readConditional inner).Reads (guarded e text ++ ((Text.blanks n).toList ++
      ("else".toList ++ (Block.opening.toList ++ elseText))))
      (.ifElse e.bare body elseBody) Stops := by
  intro rest _
  have hskip : skipBlanks ((Text.blanks n).toList ++
      ("else".toList ++ (Block.opening.toList ++ (elseText ++ rest)))) =
        "else".toList ++ (Block.opening.toList ++ (elseText ++ rest)) :=
    skipBlanks_blanks_append n (by simp)
  have hword : word ("else".toList ++ (Block.opening.toList ++ (elseText ++ rest))) =
      ("else", Block.opening.toList ++ (elseText ++ rest)) :=
    word_append (by decide) (by simp [isWordChar])
  rw [List.append_assoc, readConditional, readGuarded_guarded h hbody _ trivial]
  simp only [List.append_assoc, Option.bind_eq_bind, Option.bind_some, hskip, hword]
  rw [if_pos trivial, behind_append, helse rest trivial]
  rfl

end

def openers : List String := ["cin", "cout", "if", "while", "repeat", "return"]

namespace IsReadBack

variable {stmt : Stmt}

/-- A statement that begins with a word is read back by the reader for that word. -/
theorem of_word (first : String) (hfirst : first ∈ openers) (line : Nat → List Char)
    (htext : ∀ indent, (stmt.renderAt indent).toList =
      (Text.blanks indent).toList ++ (first.toList ++ line indent))
    (hline : ∀ indent, Begins (fun c => !isWordChar c) (line indent))
    (h : ∀ indent depth, (line indent).length ≤ depth →
      ∃ reader, (byWord (readAt depth)).lookup first = some reader ∧
        reader.Reads (line indent) stmt.bare Stops) : stmt.IsReadBack := by
  intro indent depth hdepth rest hrest
  have hwords : ∀ text ∈ openers,
      Begins Expr.opens text.toList ∧ text.toList.all isWordChar := by
    decide
  obtain ⟨hbegins, hchars⟩ := hwords first hfirst
  have hpos := List.length_pos_iff.mpr hbegins.ne_nil
  rw [htext, List.length_append, List.length_append] at hdepth
  obtain ⟨depth, rfl⟩ : ∃ inside, depth = inside + 1 := ⟨depth - 1, by omega⟩
  obtain ⟨reader, hreader, hread⟩ := h indent depth (by omega)
  have hstop := (hline indent).avoids_append rest
  have hblank := Expr.avoids_of_opens ' ' (by decide) (hbegins.append (line indent ++ rest))
  rw [htext, List.append_assoc, List.append_assoc, readAt, skipBlanks_blanks_append indent hblank,
    readLine, word_append hchars hstop, hreader]
  exact hread rest hrest

/-- A statement that begins with an expression is read back by what stands behind it. -/
theorem of_expr {e : Expr} (he : e.Spelled) (line : List Char)
    (htext : ∀ indent, (stmt.renderAt indent).toList =
      (Text.blanks indent).toList ++ (e.render.toList ++ line))
    (hline : Begins (fun c => !(isWordChar c || c == '(' || c == '.')) line)
    (h : (readEffect e.bare).Reads line stmt.bare Stops) : stmt.IsReadBack := by
  intro indent depth hdepth rest hrest
  have hbegins := Expr.begins_render he.names
  have hpos := List.length_pos_iff.mpr hbegins.ne_nil
  rw [htext, List.length_append, List.length_append] at hdepth
  obtain ⟨depth, rfl⟩ : ∃ inside, depth = inside + 1 := ⟨depth - 1, by omega⟩
  have hstop : Expr.Stops (line ++ rest) := hline.avoids_append rest
  have hlookup : (byWord (readAt depth)).lookup (word (e.render.toList ++ (line ++ rest))).1 =
      none := by
    have hword := Expr.word_render_not_mem he.names hstop.head.word
    simp_all [byWord, List.lookup_eq_none_iff, Expr.foreign]
  have hblank := Expr.avoids_of_opens ' ' (by decide) (hbegins.append (line ++ rest))
  rw [htext, List.append_assoc, List.append_assoc, readAt, skipBlanks_blanks_append indent hblank,
    readLine, hlookup]
  simp only [Expr.reader_render he _ hstop, Option.bind_eq_bind, Option.bind_some]
  exact h rest hrest

theorem of_guarded (first : String) (hfirst : first ∈ openers) {e : Expr} {body : Block}
    (htext : ∀ indent, (stmt.renderAt indent).toList = (Text.blanks indent).toList ++
      (first.toList ++ guarded e (body.closedAt indent).toList))
    (hbody : body.Spelled) (hstmts : ∀ inner ∈ body.stmts, inner.Spelled → inner.IsReadBack)
    (h : ∀ inner text, (Block.reader inner).Reads text body.bare (fun _ => True) →
      ∃ reader, (byWord inner).lookup first = some reader ∧
        reader.Reads (guarded e text) stmt.bare Stops) : stmt.IsReadBack := by
  refine .of_word first hfirst _ htext (by simp [guarded, isWordChar]) fun indent depth hdepth => ?_
  have hlength := length_le_length_guarded e (body.closedAt indent).toList
  exact h (readAt depth) _ (reader_body hbody hstmts (hlength.trans hdepth))

end IsReadBack

/-- Every printed statement is read back. -/
theorem isReadBack {stmt : Stmt} (h : stmt.Spelled) : stmt.IsReadBack := by
  -- each case names the first word or expression, the text behind it, and the reader for that text
  induction stmt using Stmt.induction with
  | assign target value =>
      obtain ⟨htarget, hvalue⟩ : target.Spelled ∧ value.Spelled := by
        simpa [exprs, bodies, Expr.spelled_assign] using (spelled_iff _).mp h
      exact .of_expr htarget (" = ".toList ++ (value.render.toList ++ [';', '\n']))
        (by simp [renderAt]) (by simp [isWordChar])
        (readLast_append (.assign target.bare) " = " hvalue)
  | increment target =>
      have htarget : target.Spelled := by
        simpa [exprs, bodies] using (spelled_iff _).mp h
      exact .of_expr htarget "++;\n".toList (by simp [renderAt]) (by decide) fun rest _ => rfl
  | decrement target =>
      have htarget : target.Spelled := by
        simpa [exprs, bodies] using (spelled_iff _).mp h
      exact .of_expr htarget "--;\n".toList (by simp [renderAt]) (by decide) fun rest _ => rfl
  | call callee args =>
      have hcall : (Expr.call callee args).Spelled := by
        simpa [exprs, bodies] using (spelled_iff _).mp h
      exact .of_expr hcall ";\n".toList (by simp [renderAt]) (by decide) fun rest _ => rfl
  | read target =>
      have htarget : target.Spelled := by
        simpa [exprs, bodies] using (spelled_iff _).mp h
      exact .of_word "cin" (by decide)
        (fun _ => " >> ".toList ++ (target.render.toList ++ [';', '\n'])) (by simp [renderAt])
        (by simp [isWordChar]) fun _ _ _ => ⟨_, rfl, readLast_append .read " >> " htarget⟩
  | write value =>
      have hvalue : value.Spelled := by
        simpa [exprs, bodies] using (spelled_iff _).mp h
      exact .of_word "cout" (by decide)
        (fun _ => " << ".toList ++ (value.render.toList ++ [';', '\n'])) (by simp [renderAt])
        (by simp [isWordChar]) fun _ _ _ => ⟨_, rfl, readLast_append .write " << " hvalue⟩
  | ret value? pos =>
      cases value? with
      | none =>
          exact .of_word "return" (by decide) (fun _ => ";\n".toList) (by simp [renderAt])
            (fun _ => by decide) fun _ _ _ => ⟨_, rfl, fun rest _ => rfl⟩
      | some value =>
          have hvalue : value.Spelled := by
            simpa [exprs, bodies] using (spelled_iff _).mp h
          exact .of_word "return" (by decide)
            (fun _ => " ".toList ++ (value.render.toList ++ [';', '\n'])) (by simp [renderAt])
            (by simp [isWordChar]) fun _ _ _ => ⟨_, rfl, readReturn_append hvalue⟩
  | ifThen cond body ih =>
      obtain ⟨hcond, hbody⟩ : cond.Spelled ∧ body.Spelled := by
        simpa [exprs, bodies] using (spelled_iff _).mp h
      exact .of_guarded "if" (by decide) (by simp [renderAt, guarded, Block.closedAt]) hbody ih
        fun _ _ hread => ⟨_, rfl, readConditional_guarded hcond hread⟩
  | whileLoop cond body ih =>
      obtain ⟨hcond, hbody⟩ : cond.Spelled ∧ body.Spelled := by
        simpa [exprs, bodies] using (spelled_iff _).mp h
      exact .of_guarded "while" (by decide) (by simp [renderAt, guarded, Block.closedAt]) hbody ih
        fun _ _ hread => ⟨_, rfl, readLoop_guarded .whileLoop hcond hread⟩
  | repeatLoop count body ih =>
      obtain ⟨hcount, hbody⟩ : count.Spelled ∧ body.Spelled := by
        simpa [exprs, bodies] using (spelled_iff _).mp h
      exact .of_guarded "repeat" (by decide) (by simp [renderAt, guarded, Block.closedAt]) hbody ih
        fun _ _ hread => ⟨_, rfl, readLoop_guarded .repeatLoop hcount hread⟩
  | ifElse cond thenBody elseBody ihthen ihelse =>
      obtain ⟨hcond, hthen, helse⟩ : cond.Spelled ∧ thenBody.Spelled ∧ elseBody.Spelled := by
        simpa [exprs, bodies] using (spelled_iff _).mp h
      refine .of_word "if" (by decide) (fun indent =>
        guarded cond (thenBody.closedAt indent).toList ++ ((Text.blanks indent).toList ++
          ("else".toList ++ (Block.opening.toList ++ (elseBody.closedAt indent).toList))))
        (by simp [renderAt, guarded, Block.closedAt]) (by simp [guarded, isWordChar])
        fun indent depth hdepth => ⟨_, rfl, ?_⟩
      have hlength := length_le_length_guarded cond (thenBody.closedAt indent).toList
      simp only [List.length_append] at hdepth
      exact readConditional_else hcond (reader_body hthen ihthen (by omega))
        (reader_body helse ihelse (by omega)) indent

/-- A printed statement is read back in front of every text that is not its second branch. -/
theorem reader_renderAt {stmt : Stmt} (h : stmt.Spelled) (indent : Nat) :
    reader.Reads (stmt.renderAt indent).toList stmt.bare Stops := by
  intro rest hrest
  exact isReadBack h indent _ (by simp) rest hrest

end Stmt

theorem Block.reader_render {block : Block} (h : block.Spelled) (indent : Nat) :
    (Block.reader Stmt.reader).Reads (block.closedAt indent).toList block.bare fun _ => True := by
  have hstmts := ((spelled_iff block).mp h).2
  exact reader_closedAt h fun stmt hstmt => Stmt.reader_renderAt (hstmts stmt hstmt) _

end StackMips
