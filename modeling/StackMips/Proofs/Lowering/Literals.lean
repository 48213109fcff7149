import StackMips.Proofs.Lowering.Performs

/-!
# String literals in scripts

The script of a tree meets the string literals of the tree one after the other.  Whatever else it
does has nothing to do with strings: it stores no text, and it loads no address but those of global
variables.
-/

namespace StackMips

open Mips

/-! ## Literals of trees -/

namespace Expr

def text? : Expr → Option String
  | .str text _ => some text
  | _ => none

def texts (e : Expr) : List String := e.nodes.filterMap text?

@[simp] theorem texts_field (base : Expr) (id : Ident) : (field base id).texts = base.texts :=
  List.filterMap_cons_none rfl

@[simp] theorem texts_assign (target value : Expr) :
    (assign target value).texts = target.texts ++ value.texts :=
  (List.filterMap_cons_none rfl).trans List.filterMap_append

@[simp] theorem texts_call (callee : Ident) (args : List Expr) :
    (call callee args).texts = args.flatMap texts := by
  rw [texts, nodes, nodesAll_eq_flatMap, List.filterMap_cons_none rfl, List.filterMap_flatMap]
  rfl

@[simp] theorem texts_unary (op : UnaryOp) (operand : Expr) :
    (unary op operand).texts = operand.texts :=
  List.filterMap_cons_none rfl

@[simp] theorem texts_binary (op : BinaryOp) (left right : Expr) :
    (binary op left right).texts = left.texts ++ right.texts :=
  (List.filterMap_cons_none rfl).trans List.filterMap_append

theorem texts_of_isLocation {e : Expr} (hlocation : e.isLocation) (hgrammar : e.InGrammar) :
    e.texts = [] := by
  induction e using Expr.induction with
  | name id => rfl
  | field base id ih =>
      rw [texts_field]
      exact ih hgrammar.field.1 hgrammar.field.2
  | int _ _ | str _ _ | bool _ _ | assign _ _ _ _ | call _ _ _ | unary _ _ _ | binary _ _ _ _ _ =>
      cases hlocation

end Expr

def Stmt.texts (stmt : Stmt) : List String := stmt.allExprs.flatMap Expr.texts

def Block.texts (block : Block) : List String := block.allExprs.flatMap Expr.texts

theorem Block.texts_eq (block : Block) : block.texts = block.stmts.flatMap Stmt.texts := by
  rw [texts, allExprs_eq, List.flatMap_assoc]
  rfl

theorem Stmt.texts_eq (stmt : Stmt) :
    stmt.texts = stmt.exprs.flatMap Expr.texts ++ stmt.bodies.flatMap Block.texts := by
  rw [texts, allExprs_eq, List.flatMap_append, List.flatMap_assoc]
  rfl

def Decl.texts : Decl → List String
  | .fn decl => decl.body.texts
  | .var _ | .struct _ => []

/-- The texts of the string literals in the function bodies, in source order. -/
def Program.texts (program : Program) : List String := program.functions.flatMap (·.body.texts)

theorem Program.texts_eq (program : Program) :
    program.texts = program.decls.flatMap Decl.texts := by
  obtain ⟨decls⟩ := program
  induction decls with
  | nil => rfl
  | cons decl decls ih =>
      rw [List.flatMap_cons, ← ih]
      cases decl <;> rfl

/-! ## Steps without strings -/

namespace Mips

def Operation.isPlain : Operation → Bool
  | .la _ (.label _) | .asciiz _ | .raw _ _ => false
  | _ => true

def Operation.loaded? : Operation → Option Label
  | .la _ (.label label) => some label
  | _ => none

namespace Line

def isPlain (line : Line) : Bool := line.instr?.all (·.operation.isPlain)

def isAsciiz (line : Line) : Bool := line.instr?.any (·.operation.mnemonic == ".asciiz")

def loaded? (line : Line) : Option Label := line.instr?.bind (·.operation.loaded?)

end Line

theorem Operation.mnemonic_of_isPlain {operation : Operation} (h : operation.isPlain) :
    operation.mnemonic ≠ ".asciiz" := by
  cases operation with
  | alu op _ _ _ => cases op <;> simp [mnemonic, AluOp.mnemonic]
  | asciiz _ | raw _ _ => cases h
  | _ => simp [mnemonic]

theorem Operation.loaded?_of_isPlain {operation : Operation} (h : operation.isPlain) :
    operation.loaded? = none := by
  cases operation with
  | la _ address =>
      cases address with
      | label _ => cases h
      | indexed _ _ => rfl
  | _ => rfl

namespace Line

variable {line : Line} (h : line.isPlain)
include h

theorem isAsciiz_of_isPlain : line.isAsciiz = false := by
  rw [isAsciiz]
  cases hinstr : line.instr? with
  | none => rfl
  | some instr =>
      rw [isPlain, hinstr] at h
      simpa using Operation.mnemonic_of_isPlain h

theorem loaded?_of_isPlain : line.loaded? = none := by
  rw [loaded?]
  cases hinstr : line.instr? with
  | none => rfl
  | some instr =>
      rw [isPlain, hinstr] at h
      exact Operation.loaded?_of_isPlain h

end Line

end Mips

def Action.isPlain : Action → Bool
  | .emit line => line.isPlain
  | .push _ | .pop _ | .release _ => true
  | .mint | .pool _ _ => false

namespace Action

variable {action : Action} (h : action.isPlain)
include h

theorem context_of_isPlain (c : Context) : action.context c = c := by
  cases action with
  | emit _ | push _ | pop _ | release _ => rfl
  | mint | pool _ _ => cases h

theorem lines_of_isPlain : ∀ line ∈ action.lines, line.isPlain := by
  cases action with
  | emit line =>
      rw [lines, List.forall_mem_singleton]
      exact h
  | push _ | pop _ => simp [lines, Line.isPlain, Line.instr?, Operation.isPlain]
  | release _ | mint | pool _ _ => simp [lines]

end Action

def Script.isPlain (script : Script) : Bool := script.all Action.isPlain

/-! ## Scripts and their literals -/

/-- The string literals that a script meets, in order. -/
inductive Script.Quotes : Context → Script → List String → Prop
  | nil {c} : Quotes c [] []
  | append {c a b texts texts'} (ha : Quotes c a texts) (hb : Quotes (c.after a) b texts') :
      Quotes c (a ++ b) (texts ++ texts')
  | step {c action} (h : action.isPlain) : Quotes c [action] []
  | mint {c} : Quotes c [.mint] []
  | global {c} (name : String) : Quotes c [.op (.la .t0 (.label (globalLabel name)))] []
  | literal {c} (text : String) : Quotes c (c.string text) [text]

theorem Context.after_of_isPlain {script : Script} (h : script.isPlain) (c : Context) :
    c.after script = c := by
  induction script with
  | nil => rfl
  | cons action script ih =>
      obtain ⟨haction, hscript⟩ := Bool.and_eq_true_iff.mp h
      rw [after_cons, Action.context_of_isPlain haction, ih hscript]

namespace Script.Quotes

variable {c : Context} {a b : Script} {texts : List String}

theorem plain (h : a.isPlain) : Quotes c a [] := by
  induction a with
  | nil => exact .nil
  | cons action a ih =>
      obtain ⟨haction, ha⟩ := Bool.and_eq_true_iff.mp h
      refine .append (.step haction) ?_
      rw [Context.after_cons, Action.context_of_isPlain haction]
      exact ih ha

theorem plain_append (ha : a.isPlain) (hb : Quotes c b texts) : Quotes c (a ++ b) texts :=
  .append (plain ha) (by rwa [Context.after_of_isPlain ha])

theorem append_plain (ha : Quotes c a texts) (hb : b.isPlain) : Quotes c (a ++ b) texts := by
  rw [← List.append_nil texts]
  exact ha.append (plain hb)

theorem mint_append (hb : Quotes (c.minted 1) b texts) : Quotes c ([Action.mint] ++ b) texts :=
  .append .mint hb

theorem mints_append (hb : Quotes (c.minted 2) b texts) :
    Quotes c ([Action.mint, .mint] ++ b) texts :=
  .mint_append (.mint_append hb)

end Script.Quotes

namespace Context

theorem isPlain_note (c : Context) (text : String) : (c.note text).isPlain := by
  unfold note
  split <;> rfl

theorem isPlain_load (c : Context) (id : Ident) : (c.load id).isPlain := by
  unfold load
  split <;> rfl

end Context

/-! ## The literals of an expression -/

namespace Expr

theorem quotes_address (target : Expr) (c c' : Context) :
    (c.address target).Quotes c' [] := by
  cases target with
  | name id =>
      rw [Context.address, Context.loadAddress]
      cases hlocation : c.symbols.location? id with
      | none => exact .nil
      | some location =>
          cases location with
          | frame offset => exact .plain rfl
          | global label =>
              obtain ⟨symbol, -, hsymbol⟩ := Option.map_eq_some_iff.mp hlocation
              split at hsymbol
              · cases hsymbol
                exact .append_plain (.global id.name) rfl
              · cases hsymbol
  | int _ _ | str _ _ | bool _ _ | field _ _ | assign _ _ | call _ _ | unary _ _
  | binary _ _ _ => exact .nil

theorem quotes_all {es : List Expr} (h : ∀ e ∈ es, ∀ c : Context,
      ∃ texts, (e.script c).Quotes c texts ∧ (e.InGrammar → texts = e.texts)) (c : Context) :
    ∃ texts, (Expr.scriptAll c es).Quotes c texts ∧
      ((∀ e ∈ es, e.InGrammar) → texts = es.flatMap Expr.texts) := by
  induction es generalizing c with
  | nil => exact ⟨[], .nil, fun _ => rfl⟩
  | cons e es ih =>
      obtain ⟨texts, he, htexts⟩ := h e (by simp) c
      obtain ⟨texts', hes, htexts'⟩ :=
        ih (fun other hother => h other (by simp [hother])) (c.after (e.script c))
      refine ⟨texts ++ texts', he.append hes, fun hgrammar => ?_⟩
      rw [List.forall_mem_cons] at hgrammar
      rw [List.flatMap_cons, htexts hgrammar.1, htexts' hgrammar.2]

/-- The script of an expression meets some literals, and if the expression is formed as the grammar
says, these are the literals of the expression. -/
theorem quotes (e : Expr) (c : Context) :
    ∃ texts, (e.script c).Quotes c texts ∧ (e.InGrammar → texts = e.texts) := by
  induction e using Expr.induction generalizing c with
  | int _ _ | bool _ _ => exact ⟨[], .plain rfl, fun _ => rfl⟩
  | name id => exact ⟨[], .plain (c.isPlain_load id), fun _ => rfl⟩
  | str text _ => exact ⟨[text], .literal text, fun _ => rfl⟩
  | field base id _ =>
      refine ⟨[], .nil, fun hgrammar => ?_⟩
      rw [texts_field, texts_of_isLocation hgrammar.field.1 hgrammar.field.2]
  | assign target value _ ih =>
      obtain ⟨texts, hvalue, htexts⟩ := ih c
      refine ⟨texts ++ [], .append_plain ((hvalue.plain_append (c.isPlain_note _)).append
        (target.quotes_address c _)) rfl, fun hgrammar => ?_⟩
      obtain ⟨hlocation, htarget, hvalue⟩ := hgrammar.assign
      rw [texts_assign, texts_of_isLocation hlocation htarget, htexts hvalue, List.append_nil,
        List.nil_append]
  | call callee args ih =>
      obtain ⟨texts, hargs, htexts⟩ := quotes_all ih c
      refine ⟨texts, ((hargs.plain_append (c.isPlain_note _)).append_plain rfl).append_plain ?_,
        fun hgrammar => ?_⟩
      · split <;> rfl
      · rw [htexts hgrammar.call, texts_call]
  | unary op operand ih =>
      obtain ⟨texts, hoperand, htexts⟩ := ih c
      refine ⟨texts, (hoperand.plain_append (c.isPlain_note _)).append_plain ?_, fun hgrammar => ?_⟩
      · cases op <;> rfl
      · rw [htexts hgrammar.unary, texts_unary]
  | binary op left right ihleft ihright =>
      have htexts : ∀ {texts texts'}, (left.InGrammar → texts = left.texts) →
          (right.InGrammar → texts' = right.texts) → (binary op left right).InGrammar →
          texts ++ texts' = (binary op left right).texts := by
        intro texts texts' hleft hright hgrammar
        rw [texts_binary, hleft hgrammar.binary.1, hright hgrammar.binary.2]
      rw [script]
      cases op.code with
      | strict alu text =>
          obtain ⟨texts, hleft, hleftTexts⟩ := ihleft c
          obtain ⟨texts', hright, hrightTexts⟩ := ihright (c.after (left.script c))
          refine ⟨texts ++ texts', ?_, htexts hleftTexts hrightTexts⟩
          simp only [List.append_assoc]
          exact .plain_append (c.isPlain_note _) (hleft.append (hright.append_plain rfl))
      | skipping decisive text =>
          obtain ⟨texts, hleft, hleftTexts⟩ := ihleft (c.minted 1)
          obtain ⟨texts', hright, hrightTexts⟩ :=
            ihright ((c.minted 1).after (left.script (c.minted 1)))
          refine ⟨texts ++ texts', ?_, htexts hleftTexts hrightTexts⟩
          simp only [List.append_assoc]
          exact .mint_append (.plain_append (c.isPlain_note _) (hleft.append
            (.plain_append rfl (hright.append_plain rfl))))

end Expr

/-! ## The literals of a statement -/

namespace Stmt

theorem quotes_all {exit : Label} {stmts : List Stmt} (h : ∀ stmt ∈ stmts, ∀ c : Context,
      ∃ texts, (stmt.script c exit).Quotes c texts ∧ (stmt.InGrammar → texts = stmt.texts))
    (c : Context) :
    ∃ texts, (Stmt.scriptAll c exit stmts).Quotes c texts ∧
      ((∀ stmt ∈ stmts, stmt.InGrammar) → texts = stmts.flatMap Stmt.texts) := by
  induction stmts generalizing c with
  | nil => exact ⟨[], .nil, fun _ => rfl⟩
  | cons stmt stmts ih =>
      obtain ⟨texts, hstmt, htexts⟩ := h stmt (by simp) c
      obtain ⟨texts', hstmts, htexts'⟩ :=
        ih (fun other hother => h other (by simp [hother])) (c.after (stmt.script c exit))
      refine ⟨texts ++ texts', hstmt.append hstmts, fun hgrammar => ?_⟩
      rw [List.forall_mem_cons] at hgrammar
      rw [List.flatMap_cons, htexts hgrammar.1, htexts' hgrammar.2]

theorem quotes_body {exit : Label} {block : Block} (h : ∀ stmt ∈ block.stmts, ∀ c : Context,
      ∃ texts, (stmt.script c exit).Quotes c texts ∧ (stmt.InGrammar → texts = stmt.texts))
    (c : Context) :
    ∃ texts, (block.script c exit).Quotes c texts ∧ (block.InGrammar → texts = block.texts) := by
  rw [Block.texts_eq]
  obtain ⟨decls, stmts⟩ := block
  exact quotes_all h c

theorem quotes_branch (cond : Expr) (target : Label) (c : Context) :
    ∃ texts, (c.branchIfFalse cond target).Quotes c texts ∧
      (cond.InGrammar → texts = cond.texts) := by
  obtain ⟨texts, hcond, htexts⟩ := cond.quotes c
  exact ⟨texts, hcond.append_plain rfl, htexts⟩

theorem quotes (stmt : Stmt) (exit : Label) (c : Context) :
    ∃ texts, (stmt.script c exit).Quotes c texts ∧ (stmt.InGrammar → texts = stmt.texts) := by
  induction stmt using Stmt.induction generalizing c with
  | assign target value =>
      obtain ⟨texts, hassign, htexts⟩ := (Expr.assign target value).quotes c
      refine ⟨texts, hassign.append_plain rfl, fun hgrammar => ?_⟩
      rw [htexts (hgrammar.exprs (by simp [exprs]))]
      simp [texts_eq, exprs, bodies]
  | increment target | decrement target =>
      obtain ⟨texts, htarget, htexts⟩ := target.quotes c
      refine ⟨[] ++ texts, .append_plain ?_ rfl, fun hgrammar => ?_⟩
      · simp only [List.append_assoc]
        refine .plain_append (c.isPlain_note _) ((target.quotes_address c c).append ?_)
        rw [Context.after_address]
        exact htarget.plain_append rfl
      · rw [htexts (hgrammar.exprs (by simp [exprs]))]
        simp [texts_eq, exprs, bodies]
  | read target =>
      refine ⟨[], ?_, fun hgrammar => ?_⟩
      · simp only [script, List.append_assoc]
        exact .plain_append (c.isPlain_note _) (.plain_append rfl
          ((target.quotes_address c c).append_plain rfl))
      · have htarget : target.texts = [] :=
          Expr.texts_of_isLocation hgrammar.isFormed (hgrammar.exprs (by simp [exprs]))
        simp [texts_eq, exprs, bodies, htarget]
  | write value =>
      obtain ⟨texts, hvalue, htexts⟩ := value.quotes c
      refine ⟨texts, (hvalue.plain_append (c.isPlain_note _)).append_plain rfl, fun hgrammar => ?_⟩
      rw [htexts (hgrammar.exprs (by simp [exprs]))]
      simp [texts_eq, exprs, bodies]
  | ifThen cond body ih =>
      obtain ⟨texts, hcond, htexts⟩ := quotes_branch cond (Context.synthetic c.labels) (c.minted 1)
      obtain ⟨texts', hbody, htexts'⟩ := quotes_body ih ((c.minted 1).after _)
      refine ⟨texts ++ texts', ?_, fun hgrammar => ?_⟩
      · simp only [script, List.append_assoc]
        exact .plain_append (c.isPlain_note _)
          (.mint_append (hcond.append (hbody.append_plain rfl)))
      · rw [htexts (hgrammar.exprs (by simp [exprs])),
          htexts' (.of_nodes body hgrammar (by simp [nodes]))]
        simp [texts_eq, exprs, bodies]
  | ifElse cond thenBody elseBody ihthen ihelse =>
      obtain ⟨texts, hcond, htexts⟩ := quotes_branch cond (Context.synthetic c.labels) (c.minted 2)
      obtain ⟨first, hthen, hfirst⟩ := quotes_body ihthen ((c.minted 2).after _)
      obtain ⟨second, helse, hsecond⟩ := quotes_body ihelse (((c.minted 2).after _).after _)
      refine ⟨texts ++ (first ++ second), ?_, fun hgrammar => ?_⟩
      · simp only [script, List.append_assoc]
        exact .plain_append (c.isPlain_note _) (.mints_append (hcond.append
          (hthen.append (.plain_append rfl (helse.append_plain rfl)))))
      · rw [htexts (hgrammar.exprs (by simp [exprs])),
          hfirst (.of_nodes thenBody hgrammar (by simp [nodes])),
          hsecond (.of_nodes elseBody hgrammar (by simp [nodes]))]
        simp [texts_eq, exprs, bodies]
  | whileLoop cond body ih =>
      obtain ⟨texts, hcond, htexts⟩ :=
        quotes_branch cond (Context.synthetic (c.labels + 1)) (c.minted 2)
      obtain ⟨texts', hbody, htexts'⟩ := quotes_body ih ((c.minted 2).after _)
      refine ⟨texts ++ texts', ?_, fun hgrammar => ?_⟩
      · simp only [script, List.append_assoc]
        exact .plain_append (c.isPlain_note _) (.mints_append (.plain_append (a := [.emit _]) rfl
          (hcond.append (hbody.append_plain rfl))))
      · rw [htexts (hgrammar.exprs (by simp [exprs])),
          htexts' (.of_nodes body hgrammar (by simp [nodes]))]
        simp [texts_eq, exprs, bodies]
  | repeatLoop count body ih =>
      obtain ⟨texts, hcount, htexts⟩ := count.quotes (c.minted 2)
      obtain ⟨texts', hbody, htexts'⟩ := quotes_body ih ((c.minted 2).after _)
      refine ⟨texts ++ texts', ?_, fun hgrammar => ?_⟩
      · simp only [script, List.append_assoc]
        exact .plain_append (c.isPlain_note _) (.mints_append (hcount.append
          (.plain_append rfl (hbody.append_plain rfl))))
      · rw [htexts (hgrammar.exprs (by simp [exprs])),
          htexts' (.of_nodes body hgrammar (by simp [nodes]))]
        simp [texts_eq, exprs, bodies]
  | call callee args =>
      obtain ⟨texts, hcall, htexts⟩ := (Expr.call callee args).quotes c
      refine ⟨texts, (hcall.plain_append (c.isPlain_note _)).append_plain ?_, fun hgrammar => ?_⟩
      · split <;> rfl
      · rw [htexts (hgrammar.exprs (by simp [exprs]))]
        simp [texts_eq, exprs, bodies]
  | ret value? pos =>
      cases value? with
      | none => exact ⟨[], .append_plain (.plain_append (c.isPlain_note _) .nil) rfl, fun _ => rfl⟩
      | some value =>
          obtain ⟨texts, hvalue, htexts⟩ := value.quotes c
          refine ⟨texts, .append_plain (.plain_append (c.isPlain_note _)
            (hvalue.append_plain rfl)) rfl, fun hgrammar => ?_⟩
          rw [htexts (hgrammar.exprs (by simp [exprs]))]
          simp [texts_eq, exprs, bodies]

end Stmt

theorem Block.quotes (block : Block) (exit : Label) (c : Context) :
    ∃ texts, (block.script c exit).Quotes c texts ∧ (block.InGrammar → texts = block.texts) :=
  Stmt.quotes_body (fun stmt _ => stmt.quotes exit) c

/-! ## The literals of a program -/

namespace Context

theorem isPlain_prologue (c : Context) (name : String) (info : FunctionInfo) :
    (c.prologue name info).isPlain := by
  unfold prologue note
  split <;> split <;> split <;> rfl

theorem isPlain_epilogue (c : Context) (exit : Label) (name : String) (info : FunctionInfo) :
    (c.epilogue exit name info).isPlain := by
  unfold epilogue note
  split <;> split <;> rfl

end Context

namespace Decl

theorem quotes (decl : Decl) (c : Context) :
    ∃ texts, (decl.script c).Quotes c texts ∧ (decl.InGrammar → texts = decl.texts) := by
  cases decl with
  | var _ | struct _ => exact ⟨[], .plain rfl, fun _ => rfl⟩
  | fn fn =>
      have hexiting : (c.exiting fn.id.name).Quotes c [] := by
        unfold Context.exiting
        split
        · exact .nil
        · exact .mint
      obtain ⟨texts, hbody, htexts⟩ := fn.body.quotes (c.exitLabel fn.id.name) (fn.bodyContext c)
      refine ⟨[] ++ texts, ?_, fun hgrammar => htexts hgrammar⟩
      simp only [script, FnDecl.script, List.append_assoc]
      exact hexiting.append (.plain_append (c.isPlain_prologue _ _)
        (hbody.append_plain (c.isPlain_epilogue _ _ _)))

theorem quotes_all (decls : List Decl) (c : Context) :
    ∃ texts, (scriptAll c decls).Quotes c texts ∧
      ((∀ decl ∈ decls, decl.InGrammar) → texts = decls.flatMap Decl.texts) := by
  induction decls generalizing c with
  | nil => exact ⟨[], .nil, fun _ => rfl⟩
  | cons decl decls ih =>
      obtain ⟨texts, hdecl, htexts⟩ := decl.quotes c
      obtain ⟨texts', hdecls, htexts'⟩ := ih (c.after (decl.script c))
      refine ⟨texts ++ texts', hdecl.append hdecls, fun hgrammar => ?_⟩
      rw [List.forall_mem_cons] at hgrammar
      rw [List.flatMap_cons, htexts hgrammar.1, htexts' hgrammar.2]

end Decl

end StackMips
