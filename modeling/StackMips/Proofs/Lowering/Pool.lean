import StackMips.Proofs.Lowering.Literals

/-!
# The string pool during generation

A text gets its label when it is first met, and keeps it.
-/

namespace StackMips

open Mips

namespace StringPool

/-- All texts of one pool have the same labels in another. -/
def Le (a b : StringPool) : Prop :=
  ∀ text label, a.lookup text = some label → b.lookup text = some label

theorem Le.refl (a : StringPool) : a.Le a := fun _ _ h => h

theorem Le.trans {a b c : StringPool} (h : a.Le b) (h' : b.Le c) : a.Le c :=
  fun text label hlookup => h' text label (h text label hlookup)

theorem lookup_insert (pool : StringPool) (text label other : String) :
    (pool.insert text label).lookup other = if text = other then some label
      else pool.lookup other := by
  by_cases h : text = other
  · simp [lookup, insert, h]
  · simp [lookup, insert, h]

end StringPool

namespace Context

@[simp] theorem strings_minted (c : Context) (n : Nat) : (c.minted n).strings = c.strings := rfl

@[simp] theorem after_load (c c' : Context) (id : Ident) : c'.after (c.load id) = c' := by
  rw [load]
  split <;> rfl

theorem strings_after_pooling (c : Context) (text : String) :
    (c.after (c.pooling text)).strings =
      match c.strings.lookup text with
      | some _ => c.strings
      | none => c.strings.insert text (synthetic c.labels) := by
  rw [pooling]
  cases c.strings.lookup text <;> rfl

theorem lookup_after_pooling (c : Context) (text : String) :
    (c.after (c.pooling text)).strings.lookup text = some (c.stringLabel text) := by
  rw [strings_after_pooling, stringLabel]
  cases hlookup : c.strings.lookup text with
  | some label => exact hlookup
  | none => simp [StringPool.lookup_insert]

theorem le_after_pooling (c : Context) (text : String) :
    c.strings.Le (c.after (c.pooling text)).strings := by
  rw [strings_after_pooling]
  cases hlookup : c.strings.lookup text with
  | some label => exact .refl _
  | none =>
      intro other label hother
      have hne : text ≠ other := by
        rintro rfl
        simp [hlookup] at hother
      simp [StringPool.lookup_insert, hne, hother]

end Context

/-! ## Properties of all scripts -/

/-- A property of scripts in contexts that holds of single steps and passes to sequences. -/
structure Script.Composes (P : Context → Script → Prop) : Prop where
  nil : ∀ c, P c []
  append : ∀ {c a b}, P c a → P (c.after a) b → P c (a ++ b)
  mint : ∀ c, P c [.mint]
  /-- A step that does not change the context. -/
  step : ∀ c action, action.context c = c → P c [action]
  pooling : ∀ c text, P c (c.pooling text)

namespace Script.Composes

variable {P : Context → Script → Prop} (h : Script.Composes P)
include h

/-- The property holds of every script that meets its literals one after the other. -/
theorem of_quotes {c : Context} {script : Script} {texts : List String}
    (hscript : script.Quotes c texts) : P c script := by
  induction hscript with
  | nil => exact h.nil _
  | append _ _ iha ihb => exact h.append iha ihb
  | step haction => exact h.step _ _ (Action.context_of_isPlain haction _)
  | mint => exact h.mint _
  | global name => exact h.step _ _ rfl
  | @literal c text =>
      exact h.append (h.pooling c text) (h.append (a := [_]) (h.step _ _ rfl) (h.step _ _ rfl))

theorem expr (e : Expr) (c : Context) : P c (e.script c) := by
  obtain ⟨_, hscript, -⟩ := e.quotes c
  exact h.of_quotes hscript

theorem stmts (stmts : List Stmt) (exit : Label) (c : Context) :
    P c (Stmt.scriptAll c exit stmts) := by
  obtain ⟨_, hscript, -⟩ := Stmt.quotes_all (fun stmt _ => stmt.quotes exit) c
  exact h.of_quotes hscript

theorem block (block : Block) (exit : Label) (c : Context) : P c (block.script c exit) := by
  obtain ⟨_, hscript, -⟩ := block.quotes exit c
  exact h.of_quotes hscript

theorem decls (decls : List Decl) (c : Context) : P c (Decl.scriptAll c decls) := by
  obtain ⟨_, hscript, -⟩ := Decl.quotes_all decls c
  exact h.of_quotes hscript

end Script.Composes

/-! ## Texts keep their labels -/

theorem StringPool.le_composes :
    Script.Composes fun c script => c.strings.Le (c.after script).strings where
  nil _ := .refl _
  append {c a b} ha hb := by
    rw [Context.after_append]
    exact ha.trans hb
  mint _ := .refl _
  step c action haction := by
    rw [Context.after_cons, haction]
    exact .refl _
  pooling := Context.le_after_pooling

theorem Expr.strings_le (e : Expr) (c : Context) :
    c.strings.Le (c.after (e.script c)).strings :=
  StringPool.le_composes.expr e c

theorem Stmt.strings_le_all (stmts : List Stmt) (c : Context) (exit : Label) :
    c.strings.Le (c.after (Stmt.scriptAll c exit stmts)).strings :=
  StringPool.le_composes.stmts stmts exit c

theorem Block.strings_le (block : Block) (c : Context) (exit : Label) :
    c.strings.Le (c.after (block.script c exit)).strings :=
  StringPool.le_composes.block block exit c

/-! ## Texts are stored when they get their labels -/

/-- Every label that the script gives to a text stands before that text in its lines. -/
def Script.Stores (c : Context) (script : Script) : Prop :=
  ∀ text label, (c.after script).strings.lookup text = some label →
    c.strings.lookup text = some label ∨
      .label label (some { operation := .asciiz text }) ∈ script.lines

theorem Script.stores_composes : Script.Composes Script.Stores where
  nil _ _ _ h := .inl h
  append {c a b} ha hb text label h := by
    rw [Context.after_append] at h
    rw [Script.lines_append, List.mem_append]
    rcases hb text label h with h | h
    · exact (ha text label h).imp_right .inl
    · exact .inr (.inr h)
  mint _ _ _ h := .inl h
  step c action haction text label h := by
    rw [Context.after_cons, haction] at h
    exact .inl h
  pooling c text other label h := by
    rw [Context.strings_after_pooling] at h
    cases hlookup : c.strings.lookup text with
    | some known =>
        rw [hlookup] at h
        exact .inl h
    | none =>
        rw [hlookup, StringPool.lookup_insert] at h
        split at h
        · next heq =>
            cases h
            subst heq
            exact .inr (by simp [Context.pooling, hlookup, Script.lines, Action.lines])
        · exact .inl h

end StackMips
