import StackMips.Proofs.Lowering.Stmt
import StackMips.Proofs.Simulation.Control
import StackMips.Proofs.Simulation.Expr

/-!
# Code of statements follows their runs

Every run of a well-typed task is followed by the machine.  The induction is on the run.  A `repeat`
loop keeps its remaining count on top of the stack, so its task may change one word more than the
others.
-/

namespace StackMips

open Mips

/-! ## Code of tasks -/

/-- Take one off the count on top of the stack, or leave the loop. -/
def Context.countdown (done : Label) : Script :=
  [.op (.lw .t0 (.indexed wordSize .sp)), .op (.ble .t0 0 done),
    .op (.alu .sub .t0 .t0 (.imm 1)), .op (.sw .t0 (.indexed wordSize .sp))]

namespace Task

/-- The code of a task; loops are entered at `start` and left through `done`. -/
def script (c : Context) (exit start done : Label) : Task → Script
  | .stmt statement => statement.script c exit
  | .stmts statements => Stmt.scriptAll c exit statements
  | .loop cond body =>
    let head := c.branchIfFalse cond done
    [Action.emit (.label start none)] ++ (head ++ body.script (c.after head) exit) ++
      ([Action.op (.b start)] ++ [Action.emit (.label done none)])
  | .times _ body =>
    [Action.emit (.label start none)] ++ (Context.countdown done ++ body.script c exit) ++
      ([Action.op (.b start)] ++ [Action.emit (.label done none)])

def peak (symbols : Arena) : Task → Nat
  | .stmt statement => statement.peak symbols
  | .stmts statements => Stmt.peakAll symbols statements
  | .loop cond body => max (cond.peak symbols) (body.peak symbols)
  | .times _ body => body.peak symbols

/-- Words up to this address may change. -/
def base (s : State) : Task → Word
  | .times _ _ => s.reg .sp + 4#32
  | _ => s.reg .sp

/-- The count of a loop is on top of the stack. -/
def Ready (S : Setting) (s : State) : Task → Prop
  | .times count _ => (s.reg .sp).toNat + 4 ≤ S.top.toNat ∧
      (s.mem (s.reg .sp + 4#32)).toInt.toNat = count
  | _ => True

end Task

theorem Block.script_eq (c : Context) (exit : Label) (block : Block) :
    block.script c exit = Stmt.scriptAll c exit block.stmts := by
  cases block
  rfl

theorem Block.peak_eq (symbols : Arena) (block : Block) :
    block.peak symbols = Stmt.peakAll symbols block.stmts := by
  cases block
  rfl

structure Setting.Admits (S : Setting) (returnType : Ty) (stmt : Stmt) : Prop where
  typed : stmt.IsTyped S.symbols returnType
  covers : ∀ e ∈ stmt.exprs, S.Covers e.uses

def Task.Admitted (S : Setting) (returnType : Ty) : Task → Prop
  | .stmt statement => ∀ node ∈ statement.nodes, S.Admits returnType node
  | .stmts statements => ∀ stmt ∈ statements, ∀ node ∈ stmt.nodes, S.Admits returnType node
  | .loop cond body => (cond.HasType S.symbols .bool ∧ S.Covers cond.uses) ∧
      ∀ stmt ∈ body.stmts, ∀ node ∈ stmt.nodes, S.Admits returnType node
  | .times _ body => ∀ stmt ∈ body.stmts, ∀ node ∈ stmt.nodes, S.Admits returnType node

theorem Task.Admitted.self {S : Setting} {returnType : Ty} {stmt : Stmt}
    (h : Task.Admitted S returnType (.stmt stmt)) : S.Admits returnType stmt :=
  h stmt stmt.self_mem_nodes

theorem Task.Admitted.body {S : Setting} {returnType : Ty} {stmt : Stmt} {body : Block}
    (h : Task.Admitted S returnType (.stmt stmt)) (hbody : body ∈ stmt.bodies) :
    Task.Admitted S returnType (.stmts body.stmts) :=
  fun _ hinner node hnode => h node (Stmt.nodes_subset_of_body body hbody hinner hnode)

def Task.Simulated (S : Setting) (exit : Label) (task : Task) (before : Snapshot)
    (events : List Event) (completion : Completion) (after : Snapshot) : Prop :=
  ∀ (c : Context) (start done : Label) (s : State), c.symbols = S.symbols →
    (c.after (task.script c exit start done)).strings.Le S.pool → S.Meets before s →
    task.Ready S s → S.floor + 4 * task.peak S.symbols ≤ (s.reg .sp).toNat →
    S.image.Completes exit (task.script c exit start done) s completion
      (S.Follows (task.base s) events completion after s)

/-! ## Conditions -/

section Condition

variable {S : Setting} {opening : Script} {cond : Expr} {store store' : Store} {word : Word}
  {c : Context} {label : Label} {s : State} (hopening : ∀ action ∈ opening, action.isInert)
  (hty : cond.HasType S.symbols .bool) (hcovers : S.Covers cond.uses)
  (hcanonical : S.Canonical store) (heval : cond.eval store = some (.word word, store'))
  (hc : c.symbols = S.symbols) (hsits : S.Sits store s)
  (hpool : (c.after (c.branchIfFalse cond label)).strings.Le S.pool)
  (hroom : S.floor + 4 * cond.peak S.symbols ≤ (s.reg .sp).toNat)
include hopening hty hcovers hcanonical heval hc hsits hpool hroom

theorem cond_reaches : S.image.Reaches (opening ++ cond.script c ++ [Action.pop .t0]) s
    fun t => S.Rests store' s t ∧ t.reg .t0 = word := by
  have hpool' : (c.after (cond.script c)).strings.Le S.pool := by
    simpa [Context.branchIfFalse] using hpool
  have hcomputes := (hsits.inert hopening).seq fun t ht =>
    (Expr.computes hty (.inl rfl) hcovers hcanonical heval c t hc hpool' ht.sits
      (by rw [ht.sp]; exact hroom)).mono fun u hu => ht.yields hu
  refine hcomputes.seq fun t ht => (ht.reaches_pop hsits .t0 (by decide)).mono ?_
  rintro u rfl
  exact ⟨ht.pop hsits .t0 (by decide), ht.reg_pop .t0 (by decide)⟩

theorem branch_falls (hword : word ≠ 0) :
    S.image.Reaches (opening ++ c.branchIfFalse cond label) s (S.Rests store' s) := by
  have hscript : opening ++ c.branchIfFalse cond label =
      opening ++ cond.script c ++ [Action.pop .t0] ++ [Action.op (.beq .t0 0 label)] := by
    simp [Context.branchIfFalse]
  rw [hscript]
  refine (cond_reaches hopening hty hcovers hcanonical heval hc hsits hpool hroom).seq ?_
  rintro t ⟨ht, hreg⟩
  exact .exec (t := t.next) (by simp [Image.exec, hreg, show word ≠ 0#32 from hword]) ht.next

theorem branch_skips (hword : word = 0) {exit : Label} (skipped rest : Script)
    {completion : Completion} {post : State → Prop}
    (hrest : ∀ t, S.Rests store' s t →
      S.image.Completes exit ([Action.emit (.label label none)] ++ rest) t completion post) :
    S.image.Completes exit
      (opening ++ c.branchIfFalse cond label ++ skipped ++
        ([Action.emit (.label label none)] ++ rest)) s
      completion post := by
  have hscript : opening ++ c.branchIfFalse cond label ++ skipped ++
      ([Action.emit (.label label none)] ++ rest) = opening ++ cond.script c ++ [Action.pop .t0] ++
        ([Action.op (.beq .t0 0 label)] ++ skipped ++
          ([Action.emit (.label label none)] ++ rest)) := by
    simp [Context.branchIfFalse]
  rw [hscript]
  refine .seq (cond_reaches hopening hty hcovers hcanonical heval hc hsits hpool hroom) ?_
  rintro t ⟨ht, hreg⟩
  refine .skip (fun pc hpc => ?_) fun pc => hrest _ (ht.jump pc)
  simp [Image.exec, hreg, hword, hpc]

end Condition

/-! ## Simple statements -/

namespace Stmt

variable {S : Setting} {exit : Label} {store store' : Store} {input : List Word} {result : Value}
  {returnType : Ty}

theorem assign_simulated {target value : Expr}
    (hadmits : S.Admits returnType (.assign target value))
    (heval : (Expr.assign target value).eval store = some (result, store')) :
    Task.Simulated S exit (.stmt (.assign target value)) ⟨store, input⟩ [] .normal
      ⟨store', input⟩ := by
  intro c start done s hc hpool hmeets _ hroom
  have hcovers := hadmits.covers (.assign target value) (by simp [exprs])
  cases hadmits.typed with
  | @assign _ _ ty hty =>
      have hvalue : ty.isStorable ∨ ty.isString := .inl (Expr.isStorable_of_assign hty heval)
      have hcanonical := (Expr.eval_fits hty hvalue hcovers hmeets.canonical heval).2
      have hpool' : (c.after ((Expr.assign target value).script c)).strings.Le S.pool := by
        simpa [Task.script, script] using hpool
      have hcomputes := Expr.computes hty hvalue hcovers hmeets.canonical heval c s hc hpool'
        hmeets.sits hroom
      refine (hcomputes.seq fun t ht => ?_).completes
      refine (ht.reaches_pop hmeets.sits .t0 (by decide)).mono ?_
      rintro u rfl
      exact (ht.pop hmeets.sits .t0 (by decide)).follows hcanonical hmeets.input

theorem address_reaches {c : Context} {id : Ident} {location : Location} {s : State}
    (hlocation : c.symbols.location? id = some location) (hsits : S.Sits store s)
    (hroom : S.floor + 4 ≤ (s.reg .sp).toNat) :
    S.image.Reaches (c.address (.name id)) s fun t =>
      S.Yields (.word (S.locate location)) store s t ∧ t.reg .v0 = s.reg .v0 := by
  have hrests := (Setting.Rests.refl hsits).set .t0 (S.locate location) (by decide) (by decide)
  exact .exec (Setting.exec_loadAddress hlocation hsits)
    ⟨hrests.next.push hroom (by simp [Setting.Represents]), by simp⟩

theorem target_places {id : Ident} {link : SymbolId} {ty : Ty} (hlink : id.link = some link)
    (hty : (Expr.name id).HasType S.symbols ty) (hstorable : ty.isStorable)
    (hcovers : S.Covers (Expr.name id).uses) :
    ∃ location symbol, S.symbols.location? id = some location ∧
      S.Place link (S.locate location) ∧ S.symbols.get? link = some symbol ∧ symbol.ty = ty := by
  obtain ⟨link', location, symbol, hlink', hlocation, hplace, hsymbol, hty⟩ :=
    Expr.names_of_hasType hty (.inl hstorable) hcovers
  obtain rfl := Option.some.inj (hlink.symm.trans hlink')
  exact ⟨location, symbol, hlocation, hplace, hsymbol, hty⟩

/-- Increments and decrements, as far as the operation has a result. -/
theorem step_simulated {stmt : Stmt} {op : AluOp} {text : String} {id : Ident} {link : SymbolId}
    {word : Word} (hscript : ∀ c exit, stmt.script c exit = c.step op text (.name id))
    (hpeak : stmt.peak S.symbols = 1) (hlink : id.link = some link)
    (hty : (Expr.name id).HasType S.symbols .int) (hcovers : S.Covers (Expr.name id).uses)
    (hword : op.eval (store link) (.ofInt 32 1) = some word) :
    Task.Simulated S exit (.stmt stmt) ⟨store, input⟩ [] .normal
      ⟨Function.update store link word, input⟩ := by
  intro c start done s hc hpool hmeets _ hroom
  obtain ⟨location, symbol, hlocation, hplace, hsymbol, htype⟩ :=
    target_places hlink hty rfl hcovers
  rw [Task.peak, hpeak] at hroom
  rw [Task.script, hscript]
  have hsits := hmeets.sits
  have hcanonical : S.Canonical (Function.update store link word) :=
    Expr.canonical_update hmeets.canonical hsymbol (by simp [htype])
  have haddress := (hsits.inert (c.isInert_note text)).seq fun t ht =>
    (address_reaches (c := c) (hc ▸ hlocation) ht.sits (by rw [ht.sp]; omega)).mono
      fun u hu => ht.yields hu.1
  have hpopped : S.image.Reaches (c.note text ++ c.address (.name id) ++ [Action.pop .t1]) s
      fun t => S.Rests store s t ∧ t.reg .t1 = S.locate location := by
    refine haddress.seq fun t ht => (ht.reaches_pop hsits .t1 (by decide)).mono ?_
    rintro u rfl
    exact ⟨ht.pop hsits .t1 (by decide), ht.reg_pop .t1 (by decide)⟩
  have hloaded : S.image.Reaches (c.note text ++ c.address (.name id) ++ [Action.pop .t1] ++
      (Expr.name id).script c) s fun u => ∃ t, S.Rests store s t ∧
        S.Yields (.word (store link)) store t u ∧ u.reg .t1 = S.locate location := by
    refine hpopped.seq ?_
    rintro t ⟨ht, hreg⟩
    have hrests := (Setting.Rests.refl ht.sits).set .t0 (store link) (by decide) (by decide)
    refine .exec (Setting.exec_load (hc ▸ hlocation) hplace ht.sits) ⟨t, ht, ?_, by simp [hreg]⟩
    exact hrests.next.push (by rw [ht.sp]; omega) (by simp [Setting.Represents])
  refine (hloaded.seq ?_).completes
  rintro u ⟨t, ht, hu, hreg⟩
  have hstored := (((hu.pop ht.sits .t0 (by decide)).set .t0 word (by decide)
    (by decide)).next.assign hplace word).next
  have hvalue : u.mem (t.reg .sp) = store link := hu.value
  refine .exec (t := (((u.pop .t0).set .t0 word).next.store (S.locate location) word).next) ?_
    ((ht.trans hstored).follows hcanonical hmeets.input)
  simp [Image.exec, Image.address, State.source, hu.sp_add, ht.sits.aligned, hvalue, hreg,
    S.aligned hplace, show op.eval (store link) 1#32 = some word from hword]

theorem readable_isStorable {id : Ident} {ty : Ty} (hty : (Expr.name id).HasType S.symbols ty)
    (hread : ty.isReadable) : ty.isStorable := by
  refine Expr.isStorable_of_name hty ?_ ?_ <;>
    cases ty <;> simp_all [Ty.isReadable, Ty.isFunction, Ty.isStructDef]

theorem read_simulated {id : Ident} {link : SymbolId} {word : Word} {ty : Ty}
    (hlink : id.link = some link) (hty : (Expr.name id).HasType S.symbols ty)
    (hread : ty.isReadable) (hcovers : S.Covers (Expr.name id).uses)
    (hword : ty = .bool → word = 0 ∨ word = 1) :
    Task.Simulated S exit (.stmt (.read (.name id))) ⟨store, word :: input⟩ [.read word] .normal
      ⟨Function.update store link word, input⟩ := by
  intro c start done s hc hpool hmeets _ hroom
  obtain ⟨location, symbol, hlocation, hplace, hsymbol, htype⟩ :=
    target_places hlink hty (readable_isStorable hty hread) hcovers
  have hinput : s.input = word :: input := hmeets.input
  have hcanonical := Expr.canonical_update hmeets.canonical hsymbol (htype ▸ hword)
  have hservice : S.image.Reaches (c.note "READ" ++
      [Action.op (.li .v0 (Syscall.number .readInt)), .op .syscall]) s fun t =>
        S.Follows (s.reg .sp) [.read word] .normal ⟨store, input⟩ s t ∧ t.reg .v0 = word := by
    refine (hmeets.sits.inert (c.isInert_note "READ")).seq fun t ht => .exec
      (t := (({ (t.set .v0 5#32).next with input }.emit (.read word)).set .v0 word).next) ?_ ?_
    · simp [Image.exec, Image.syscall, Syscall.number, ht.keeps.input, hinput]
    · refine ⟨⟨⟨ht.sits.of_eq (by simp) (by simp) rfl, hmeets.canonical, rfl⟩, ht.keeps.mem, ?_,
        by simp [Setting.Ends, ht.sp]⟩, by simp⟩
      simp [ht.keeps.events]
  have haddress : S.image.Reaches (c.note "READ" ++
      [Action.op (.li .v0 (Syscall.number .readInt)), .op .syscall] ++
        c.address (.name id)) s fun u =>
        ∃ t, S.Follows (s.reg .sp) [.read word] .normal ⟨store, input⟩ s t ∧
          S.Yields (.word (S.locate location)) store t u ∧ u.reg .v0 = word := by
    refine hservice.seq ?_
    rintro t ⟨ht, hreg⟩
    have hsp : t.reg .sp = s.reg .sp := ht.ends
    exact (address_reaches (c := c) (hc ▸ hlocation) ht.meets.sits (by rw [hsp]; exact hroom)).mono
      fun u hu => ⟨t, ht, hu.1, hu.2.trans hreg⟩
  refine (haddress.seq ?_).completes
  rintro u ⟨t, ht, hu, hreg⟩
  have hstored := ((hu.pop ht.meets.sits .t0 (by decide)).assign hplace word).next
  have haddress : u.mem (t.reg .sp) = S.locate location := hu.value
  have hsp : t.reg .sp = s.reg .sp := ht.ends
  refine .exec (t := ((u.pop .t0).store (S.locate location) word).next) ?_ ?_
  · simp [Image.exec, Image.address, hu.sp_add, ht.meets.sits.aligned, haddress, hreg,
      S.aligned hplace]
  · exact ht.trans (hsp ▸ hstored.follows hcanonical ht.meets.input)

/-- The service that is asked for depends on the type of the value. -/
theorem exec_write {value : Value} {ty : Ty} {s : State} (hfits : value.Fits ty)
    (hvalue : S.Represents (s.reg .a0) value) :
    Script.exec S.image [.op (.li .v0 (Syscall.number
      (if ty.isString then .printString else .printInt))), .op .syscall] s =
      some ((((s.set .v0 (.ofInt 32 (Syscall.number
        (if ty.isString then .printString else .printInt)))).next).emit value.event).next) := by
  cases value with
  | word w =>
      have hword : s.reg .a0 = w := hvalue
      simp [Image.exec, Image.syscall, hfits.1, hword, Value.event]
  | text text =>
      have hstring : ty.isString = true := hfits
      obtain ⟨label, hlabel, haddress⟩ := hvalue
      obtain ⟨comment, hmem⟩ := S.texts hlabel
      have htext := Image.textAt_of_mem hmem
      simp [Image.exec, Image.syscall, hstring, haddress, htext, Value.event, Syscall.number]

theorem writable_isStorable {value : Expr} {ty : Ty} (hty : value.HasType S.symbols ty)
    (hwrite : ty.isWritable) : ty.isStorable ∨ ty.isString := by
  have herror := hty.isError S.typed
  cases ty <;>
    simp_all [Ty.isWritable, Ty.isReadable, Ty.isVoid, Ty.isStorable, Ty.isString, Ty.isError]

theorem write_simulated {value : Expr} {ty : Ty} (hty : value.HasType S.symbols ty)
    (hwrite : ty.isWritable) (hcovers : S.Covers value.uses)
    (heval : value.eval store = some (result, store')) :
    Task.Simulated S exit (.stmt (.write value)) ⟨store, input⟩ [result.event] .normal
      ⟨store', input⟩ := by
  intro c start done s hc hpool hmeets _ hroom
  have hsits := hmeets.sits
  have hvalue := writable_isStorable hty hwrite
  obtain ⟨hfits, hcanonical⟩ := Expr.eval_fits hty hvalue hcovers hmeets.canonical heval
  have hpool' : (c.after (value.script c)).strings.Le S.pool := by
    simpa [Task.script, script] using hpool
  have hcomputes := (hsits.inert (c.isInert_note "WRITE")).seq fun t ht =>
    (Expr.computes hty hvalue hcovers hmeets.canonical heval c t hc hpool' ht.sits
      (by rw [ht.sp]; exact hroom)).mono fun u hu => ht.yields hu
  have hpopped : S.image.Reaches (c.note "WRITE" ++ value.script c ++ [Action.pop .a0]) s
      fun t => S.Rests store' s t ∧ S.Represents (t.reg .a0) result := by
    refine hcomputes.seq fun t ht => (ht.reaches_pop hsits .a0 (by decide)).mono ?_
    rintro u rfl
    exact ⟨ht.pop hsits .a0 (by decide), ht.reg_pop .a0 (by decide)⟩
  have hscript : (write value).script c exit = c.note "WRITE" ++ value.script c ++
      [Action.pop .a0] ++
      [Action.op (.li .v0 (Syscall.number (if ty.isString then .printString else .printInt))),
        .op .syscall] := by
    simp [script, printer_eq hc hty]
  rw [Task.script, hscript]
  refine (hpopped.seq ?_).completes
  rintro t ⟨ht, hreg⟩
  refine .exec (exec_write hfits hreg) ⟨⟨ht.sits.of_eq (by simp) (by simp) rfl, hcanonical,
    ht.keeps.input.trans hmeets.input⟩, ht.keeps.mem, ?_, by simp [Setting.Ends, ht.sp]⟩
  simp [ht.keeps.events]

section Return

variable {pc : Nat} (hexit : S.image.target exit = some pc)
include hexit

theorem ret_simulated (pos : Pos) (before : Snapshot) :
    Task.Simulated S exit (.stmt (.ret none pos)) before [] (.returned none) before := by
  intro c start done s hc hpool hmeets _ hroom
  have hscript : (ret none pos).script c exit = c.note "RETURN" ++ [Action.op (.b exit)] := by
    simp [script]
  rw [Task.script, hscript]
  refine .seq (hmeets.sits.inert (c.isInert_note "RETURN")) fun t ht => .branch_exit hexit ?_
  have hfollows := (ht.jump pc).follows hmeets.canonical hmeets.input
  exact ⟨hfollows.meets, hfollows.mem, hfollows.events, trivial⟩

theorem retValue_simulated {value : Expr} {pos : Pos} {ty : Ty}
    (hty : value.HasType S.symbols ty) (hstorable : ty.isStorable) (hcovers : S.Covers value.uses)
    (heval : value.eval store = some (result, store')) :
    Task.Simulated S exit (.stmt (.ret (some value) pos)) ⟨store, input⟩ []
      (.returned (some result)) ⟨store', input⟩ := by
  intro c start done s hc hpool hmeets _ hroom
  have hsits := hmeets.sits
  have hcanonical :=
    (Expr.eval_fits hty (.inl hstorable) hcovers hmeets.canonical heval).2
  have hpool' : (c.after (value.script c)).strings.Le S.pool := by
    simpa [Task.script, script] using hpool
  have hcomputes := (hsits.inert (c.isInert_note "RETURN")).seq fun t ht =>
    (Expr.computes hty (.inl hstorable) hcovers hmeets.canonical heval c t hc hpool' ht.sits
      (by rw [ht.sp]; exact hroom)).mono fun u hu => ht.yields hu
  have hscript : (ret (some value) pos).script c exit =
      c.note "RETURN" ++ value.script c ++ ([Action.pop .v0] ++ [Action.op (.b exit)]) := by
    simp [script]
  rw [Task.script, hscript]
  refine .seq hcomputes fun t ht => .seq (ht.reaches_pop hsits .v0 (by decide)) ?_
  rintro u rfl
  refine .branch_exit hexit ?_
  have hfollows := ((ht.pop hsits .v0 (by decide)).jump pc).follows hcanonical hmeets.input
  exact ⟨hfollows.meets, hfollows.mem, hfollows.events, ht.reg_pop .v0 (by decide)⟩

end Return

/-! ## Branches -/

section Branch

variable {cond : Expr} {events : List Event} {completion : Completion} {after : Snapshot}
  {word : Word} (hty : cond.HasType S.symbols .bool) (hcovers : S.Covers cond.uses)
  (heval : cond.eval store = some (.word word, store'))
include hty hcovers heval

theorem ifThen_simulated {body : Block} (hword : word ≠ 0)
    (hbody : Task.Simulated S exit (.stmts body.stmts) ⟨store', input⟩ events completion after) :
    Task.Simulated S exit (.stmt (.ifThen cond body)) ⟨store, input⟩ events completion after := by
  intro c start done s hc hpool hmeets _ hroom
  simp only [Task.peak, peak, Block.peak_eq] at hroom
  simp only [Task.script, script, Block.script_eq, Context.after_append, Context.after_note,
    Context.after_cons, Context.after_nil, Action.context_mint, Action.context_emit] at hpool ⊢
  have hcanonical := (Expr.eval_fits hty (.inl rfl) hcovers hmeets.canonical heval).2
  have hopening : ∀ action ∈ c.note "IF STMT" ++ [Action.mint], action.isInert :=
    List.forall_mem_append.mpr ⟨c.isInert_note _, by simp [Action.isInert]⟩
  have hhead := branch_falls hopening hty hcovers hmeets.canonical heval (c := c.minted 1) hc
    hmeets.sits ((Stmt.strings_le_all body.stmts _ exit).trans hpool)
    (by omega) hword
  refine Setting.Follows.trailing (by simp [Action.isInert]) (.seq hhead fun t ht => ?_)
  refine (hbody _ start done t (by simpa using hc) hpool (ht.meets hcanonical hmeets.input) trivial
    ?_).mono fun u hu => ht.follows_trans hcanonical hmeets.input hu
  rw [ht.sp, Task.peak]
  omega

theorem ifThen_skipped {body : Block} (hword : word = 0) :
    Task.Simulated S exit (.stmt (.ifThen cond body)) ⟨store, input⟩ [] .normal
      ⟨store', input⟩ := by
  intro c start done s hc hpool hmeets _ hroom
  simp only [Task.peak, peak] at hroom
  simp only [Task.script, script, Context.after_append, Context.after_note,
    Context.after_cons, Context.after_nil, Action.context_mint, Action.context_emit] at hpool ⊢
  have hcanonical := (Expr.eval_fits hty (.inl rfl) hcovers hmeets.canonical heval).2
  have hopening : ∀ action ∈ c.note "IF STMT" ++ [Action.mint], action.isInert :=
    List.forall_mem_append.mpr ⟨c.isInert_note _, by simp [Action.isInert]⟩
  refine branch_skips hopening hty hcovers hmeets.canonical heval (c := c.minted 1) hc hmeets.sits
    ((body.strings_le _ exit).trans hpool) (by omega) hword _ [] fun t ht => ?_
  exact (Image.Reaches.inert (by simp [Action.isInert])
    ((ht.past _).follows hcanonical hmeets.input)).completes

theorem ifElse_simulated {thenBody elseBody : Block}
    (hbody : Task.Simulated S exit (.stmts (if word = 0 then elseBody else thenBody).stmts)
      ⟨store', input⟩ events completion after) :
    Task.Simulated S exit (.stmt (.ifElse cond thenBody elseBody)) ⟨store, input⟩ events completion
      after := by
  intro c start done s hc hpool hmeets _ hroom
  simp only [Task.peak, peak, Block.peak_eq] at hroom
  simp only [Task.script, script, Block.script_eq, Context.after_append, Context.after_note,
    Context.after_cons, Context.after_nil, Action.context_mint, Action.context_emit,
    Action.context_op, Context.minted_minted] at hpool ⊢
  have hcanonical := (Expr.eval_fits hty (.inl rfl) hcovers hmeets.canonical heval).2
  have hopening : ∀ action ∈ c.note "IF ELSE STMT" ++ [Action.mint, .mint], action.isInert :=
    List.forall_mem_append.mpr ⟨c.isInert_note _, by simp [Action.isInert]⟩
  have hpoolThen := (Stmt.strings_le_all elseBody.stmts _ exit).trans hpool
  have hpoolHead := (Stmt.strings_le_all thenBody.stmts _ exit).trans hpoolThen
  have hrun : ∀ {body : Block} {c' : Context} {t : State}, c'.symbols = S.symbols →
      (c'.after (Stmt.scriptAll c' exit body.stmts)).strings.Le S.pool → S.Rests store' s t →
      S.floor + 4 * Stmt.peakAll S.symbols body.stmts ≤ (s.reg .sp).toNat →
      Task.Simulated S exit (.stmts body.stmts) ⟨store', input⟩ events completion after →
      S.image.Completes exit (Stmt.scriptAll c' exit body.stmts) t completion
        (S.Follows (s.reg .sp) events completion after s) := by
    intro body c' t hc' hpool' ht hroom' hbody
    exact (hbody c' start done t hc' hpool' (ht.meets hcanonical hmeets.input) trivial
      (by rw [ht.sp]; exact hroom')).mono fun u hu => ht.follows_trans hcanonical hmeets.input hu
  by_cases hword : word = 0
  · rw [if_pos hword] at hbody
    have hshape : ∀ head first second : Script, ∀ otherwise done : Label,
        head ++ first ++ [Action.op (.b done), .emit (.label otherwise none)] ++ second ++
          [Action.emit (.label done none)] = head ++ (first ++ [Action.op (.b done)]) ++
            ([Action.emit (.label otherwise none)] ++
              (second ++ [Action.emit (.label done none)])) := by
      simp
    rw [hshape]
    refine branch_skips hopening hty hcovers hmeets.canonical heval (c := c.minted 2) hc
      hmeets.sits hpoolHead (by omega) hword _ _ fun t ht => ?_
    refine .seq (ht.sits.inert (by simp [Action.isInert])) fun u hu => ?_
    exact Setting.Follows.trailing (by simp [Action.isInert])
      (hrun (by simpa using hc) hpool (ht.trans hu) (by omega) hbody)
  · rw [if_neg hword] at hbody
    have hthen := Image.Completes.seq (branch_falls hopening hty hcovers hmeets.canonical heval
      (c := c.minted 2) hc hmeets.sits hpoolHead (by omega) hword) fun t ht =>
        hrun (by simpa using hc) hpoolThen ht (by omega) hbody
    have hshape : ∀ first second : Script, ∀ otherwise done : Label,
        first ++ [Action.op (.b done), .emit (.label otherwise none)] ++ second ++
          [Action.emit (.label done none)] = first ++ ([Action.op (.b done)] ++
            ([Action.emit (.label otherwise none)] ++ second) ++
              ([Action.emit (.label done none)] ++ [])) := by
      simp
    rw [hshape]
    cases completion with
    | returned value? => exact hthen.leave
    | normal =>
        refine .seq hthen.reaches fun t ht => .skip (fun pc hpc => ?_) fun pc => ?_
        · simp [Image.exec, hpc]
        · exact (Image.Reaches.inert (by simp [Action.isInert]) ((ht.jump _).jump _)).completes

end Branch

end Stmt

/-! ## Loops -/

namespace Task

variable {S : Setting} {exit : Label} {store store' : Store} {input : List Word}
  {events events' : List Event} {completion : Completion} {middle after : Snapshot} {word : Word}
  {value? : Option Value} {body : Block}

section Loop

variable {cond : Expr} (hty : cond.HasType S.symbols .bool) (hcovers : S.Covers cond.uses)
  (heval : cond.eval store = some (.word word, store'))
include hty hcovers heval

theorem loop_done (hword : word = 0) :
    Task.Simulated S exit (.loop cond body) ⟨store, input⟩ [] .normal ⟨store', input⟩ := by
  intro c start done s hc hpool hmeets _ hroom
  simp only [peak] at hroom
  simp only [script, Context.after_append, Context.after_cons, Context.after_nil,
    Action.context_emit, Action.context_op] at hpool ⊢
  have hcanonical := (Expr.eval_fits hty (.inl rfl) hcovers hmeets.canonical heval).2
  have hshape : ∀ a head body last : Script, ∀ done : Label,
      a ++ (head ++ body) ++ (last ++ [Action.emit (.label done none)]) =
        a ++ head ++ (body ++ last) ++ ([Action.emit (.label done none)] ++ []) := by
    simp
  rw [hshape]
  refine branch_skips (by simp [Action.isInert]) hty hcovers hmeets.canonical heval hc hmeets.sits
    ((body.strings_le _ exit).trans hpool) (by omega) hword _ _ fun t ht => ?_
  exact (Image.Reaches.inert (by simp [Action.isInert])
    ((ht.past _).follows hcanonical hmeets.input)).completes

/-- A round of the loop up to the branch back. -/
theorem loop_round (hword : word ≠ 0)
    (hbody : Task.Simulated S exit (.stmts body.stmts) ⟨store', input⟩ events completion middle)
    {c : Context} {start done : Label} {s : State} (hc : c.symbols = S.symbols)
    (hpool : (c.after (script c exit start done (.loop cond body))).strings.Le S.pool)
    (hmeets : S.Meets ⟨store, input⟩ s)
    (hroom : S.floor + 4 * peak S.symbols (.loop cond body) ≤ (s.reg .sp).toNat) :
    S.image.Completes exit ([Action.emit (.label start none)] ++ (c.branchIfFalse cond done ++
      body.script (c.after (c.branchIfFalse cond done)) exit)) s completion
      (S.Follows (s.reg .sp) events completion middle s) := by
  simp only [peak, Block.peak_eq] at hroom
  simp only [script, Context.after_append, Context.after_cons, Context.after_nil,
    Action.context_emit, Action.context_op] at hpool
  have hcanonical := (Expr.eval_fits hty (.inl rfl) hcovers hmeets.canonical heval).2
  rw [← List.append_assoc]
  refine .seq (branch_falls (by simp [Action.isInert]) hty hcovers hmeets.canonical heval hc
    hmeets.sits ((body.strings_le _ exit).trans hpool) (by omega) hword) fun t ht => ?_
  rw [Block.script_eq] at hpool ⊢
  refine (hbody _ start done t (by simpa using hc) hpool (ht.meets hcanonical hmeets.input) trivial
    ?_).mono fun u hu => ht.follows_trans hcanonical hmeets.input hu
  rw [ht.sp, peak]
  omega

theorem loop_step (hword : word ≠ 0)
    (hbody : Task.Simulated S exit (.stmts body.stmts) ⟨store', input⟩ events .normal middle)
    (hloop : Task.Simulated S exit (.loop cond body) middle events' completion after) :
    Task.Simulated S exit (.loop cond body) ⟨store, input⟩ (events ++ events') completion
      after := by
  intro c start done s hc hpool hmeets _ hroom
  refine .again (loop_round hty hcovers heval hword hbody hc hpool hmeets hroom).reaches
    fun t ht => ?_
  have hsp : t.reg .sp = s.reg .sp := ht.ends
  refine (hloop c start done (t.jump s.pc) hc hpool (ht.jump s.pc).meets trivial ?_).mono
    fun u hu => (ht.jump s.pc).trans ?_
  · exact hsp ▸ hroom
  · simpa [base, hsp] using hu

theorem loop_leave (hword : word ≠ 0)
    (hbody : Task.Simulated S exit (.stmts body.stmts) ⟨store', input⟩ events (.returned value?)
      after) :
    Task.Simulated S exit (.loop cond body) ⟨store, input⟩ events (.returned value?) after := by
  intro c start done s hc hpool hmeets _ hroom
  exact (loop_round hty hcovers heval hword hbody hc hpool hmeets hroom).leave

end Loop

theorem whileLoop_simulated {cond : Expr} {before : Snapshot}
    (hloop : Task.Simulated S exit (.loop cond body) before events completion after) :
    Task.Simulated S exit (.stmt (.whileLoop cond body)) before events completion after := by
  intro c start done s hc hpool hmeets _ hroom
  have hscript : (Stmt.whileLoop cond body).script c exit =
      c.note "WHILE STMT" ++ [Action.mint, .mint] ++
      script (c.minted 2) exit (Context.synthetic c.labels) (Context.synthetic (c.labels + 1))
        (.loop cond body) := by
    simp [Stmt.script, script]
  have hopening : ∀ action ∈ c.note "WHILE STMT" ++ [Action.mint, .mint], action.isInert :=
    List.forall_mem_append.mpr ⟨c.isInert_note _, by simp [Action.isInert]⟩
  rw [script, hscript] at hpool ⊢
  refine .seq (hmeets.sits.inert hopening) fun t ht => ?_
  refine (hloop (c.minted 2) _ _ t hc (by simpa using hpool)
    (ht.meets hmeets.canonical hmeets.input) trivial ?_).mono fun u hu =>
      ht.follows_trans hmeets.canonical hmeets.input hu
  rw [ht.sp]
  exact hroom

section Times

variable {count : Nat} {before : Snapshot}

theorem toNat_counter {s : State} (hbelow : (s.reg .sp).toNat + 4 ≤ S.top.toNat) :
    (s.reg .sp + 4#32).toNat = (s.reg .sp).toNat + 4 := by
  have := S.top.isLt
  bv_omega

theorem aligned_counter {s : State} (h : (s.reg .sp).Aligned) : (s.reg .sp + 4#32).Aligned := by
  unfold Word.Aligned at *
  bv_omega

theorem times_done : Task.Simulated S exit (.times 0 body) before [] .normal before := by
  intro c start done s hc hpool hmeets hready hroom
  obtain ⟨hbelow, hcount⟩ := hready
  have hshape : script c exit start done (.times 0 body) =
      [Action.emit (.label start none), .op (.lw .t0 (.indexed wordSize .sp))] ++
        ([Action.op (.ble .t0 0 done)] ++ ([Action.op (.alu .sub .t0 .t0 (.imm 1)),
          .op (.sw .t0 (.indexed wordSize .sp))] ++ body.script c exit ++ [Action.op (.b start)]) ++
          ([Action.emit (.label done none)] ++ [])) := by
    simp [script, Context.countdown]
  have hload : S.image.Reaches
      [.emit (.label start none), .op (.lw .t0 (.indexed wordSize .sp))] s fun t =>
        S.Rests before.store s t ∧ t.reg .t0 = s.mem (s.reg .sp + 4#32) := by
    refine .exec (t := (s.next.set .t0 (s.mem (s.reg .sp + 4#32))).next) ?_
      ⟨((Setting.Rests.refl hmeets.sits).next.set .t0 _ (by decide) (by decide)).next, by simp⟩
    simp [Image.exec, Image.address, wordSize, aligned_counter hmeets.sits.aligned]
  rw [hshape]
  refine .seq hload ?_
  rintro t ⟨ht, hreg⟩
  refine .skip (fun pc hpc => ?_) fun pc => ?_
  · have hle : (t.reg .t0).sle (.ofInt 32 0) := by
      have hzero : (BitVec.ofInt 32 0).toInt = 0 := rfl
      simp only [hreg, BitVec.sle, hzero, decide_eq_true_eq]
      omega
    rw [Image.exec, if_pos hle, hpc]
    rfl
  · exact (Image.Reaches.inert (by simp [Action.isInert])
      ((((ht.jump pc).past _).follows hmeets.canonical hmeets.input).mono
        (by rw [base, toNat_counter hbelow]; omega))).completes

theorem count_pred {word : Word} (h : word.toInt.toNat = count + 1) :
    word.sle 0#32 = false ∧ AluOp.sub.eval word 1#32 = some (word - 1#32) ∧
      (word - 1#32).toInt.toNat = count := by
  have hlt : word.toInt < 2 ^ 31 := word.toInt_lt
  have hone : (1#32).toInt = 1 := rfl
  have hzero : (0#32).toInt = 0 := rfl
  refine ⟨?_, ?_, ?_⟩
  · simp only [BitVec.sle, hzero, decide_eq_false_iff_not]
    omega
  · have hfits : word.ssubOverflow 1#32 = false := by
      simp [BitVec.ssubOverflow]
      omega
    simp [AluOp.eval, hfits]
  · rw [BitVec.toInt_sub, hone, Int.bmod_eq_of_le] <;> omega

/-- One is taken off the count before the body runs. -/
theorem countdown_reaches {start done : Label} {s : State} (hmeets : S.Meets before s)
    (hready : Ready S s (.times (count + 1) body)) :
    S.image.Reaches ([Action.emit (.label start none)] ++ Context.countdown done) s fun t =>
      S.Follows (s.reg .sp + 4#32) [] .normal before s t ∧ Ready S t (.times count body) := by
  obtain ⟨hbelow, hcount⟩ := hready
  have hcounter := toNat_counter hbelow
  have habove := hmeets.sits.above
  obtain ⟨hfalls, hsub, hpred⟩ := count_pred hcount
  generalize hword : s.mem (s.reg .sp + 4#32) = word at hcount hfalls hsub hpred
  refine .exec (t := (((s.next.set .t0 word).next.next.set .t0 (word - 1#32)).next.store
    (s.reg .sp + 4#32) (word - 1#32)).next) ?_
    ⟨⟨⟨⟨by simpa using hmeets.sits.fp, by simpa using hmeets.sits.below,
      by simpa using hmeets.sits.above, by simpa using hmeets.sits.aligned, ?_⟩, hmeets.canonical,
      hmeets.input⟩, ?_, by simp, by simp [Setting.Ends]⟩, by simpa using hbelow,
      by simpa using hpred⟩
  · simp [Context.countdown, Image.exec, Image.address, State.source, wordSize,
      aligned_counter hmeets.sits.aligned, hword, hfalls, hsub]
  · intro link a hplace
    have hne : a ≠ s.reg .sp + 4#32 := by
      rintro rfl
      exact Setting.not_place_of_le (by omega) (by omega) link hplace
    simp [hne, hmeets.sits.holds hplace]
  · intro a ha _
    have hne : a ≠ s.reg .sp + 4#32 := ha.ne (by omega)
    simp [hne]

/-- A round of the loop up to the branch back.  The count lies above the stack of the body. -/
theorem times_round
    (hbody : Task.Simulated S exit (.stmts body.stmts) before events completion middle)
    {c : Context} {start done : Label} {s : State} (hc : c.symbols = S.symbols)
    (hpool : (c.after (body.script c exit)).strings.Le S.pool) (hmeets : S.Meets before s)
    (hready : Ready S s (.times (count + 1) body))
    (hroom : S.floor + 4 * body.peak S.symbols ≤ (s.reg .sp).toNat) :
    S.image.Completes exit ([Action.emit (.label start none)] ++ (Context.countdown done ++
      body.script c exit)) s completion fun t =>
        S.Follows (s.reg .sp + 4#32) events completion middle s t ∧
          (completion = .normal → Ready S t (.times count body)) := by
  rw [← List.append_assoc]
  refine .seq (countdown_reaches hmeets hready) ?_
  rintro t ⟨ht, hbelow, hcount⟩
  have hsp : t.reg .sp = s.reg .sp := ht.ends
  have hcounter := toNat_counter hbelow
  rw [Block.script_eq] at hpool ⊢
  rw [Block.peak_eq] at hroom
  refine (hbody c start done t hc hpool ht.meets trivial (hsp ▸ hroom)).mono fun u hu => ?_
  have hu : S.Follows (t.reg .sp) events completion middle t u := hu
  have hfollows : S.Follows (t.reg .sp + 4#32) events completion middle t u := hu.mono (by omega)
  refine ⟨ht.trans (hsp ▸ hfollows), ?_⟩
  rintro rfl
  have hsp' : u.reg .sp = t.reg .sp := hu.ends
  have habove := ht.meets.sits.above
  have hkept : u.mem (t.reg .sp + 4#32) = t.mem (t.reg .sp + 4#32) :=
    hu.mem _ (.inl (by omega)) (Setting.not_place_of_le (by omega) (by omega))
  exact ⟨by rw [hsp']; exact hbelow, by rw [hsp', hkept]; exact hcount⟩

theorem times_step
    (hbody : Task.Simulated S exit (.stmts body.stmts) before events .normal middle)
    (htimes : Task.Simulated S exit (.times count body) middle events' completion after) :
    Task.Simulated S exit (.times (count + 1) body) before (events ++ events') completion
      after := by
  intro c start done s hc hpool hmeets hready hroom
  have hpool' : (c.after (body.script c exit)).strings.Le S.pool := by
    simpa [script, Context.countdown] using hpool
  refine .again (times_round hbody hc hpool' hmeets hready hroom).reaches ?_
  rintro t ⟨ht, hready'⟩
  have hsp : t.reg .sp = s.reg .sp := ht.ends
  refine (htimes c start done (t.jump s.pc) hc hpool (ht.jump s.pc).meets (hready' rfl) ?_).mono
    fun u hu => (ht.jump s.pc).trans ?_
  · exact hsp ▸ hroom
  · simpa [base, hsp] using hu

theorem times_leave
    (hbody : Task.Simulated S exit (.stmts body.stmts) before events (.returned value?) after) :
    Task.Simulated S exit (.times (count + 1) body) before events (.returned value?) after := by
  intro c start done s hc hpool hmeets hready hroom
  have hpool' : (c.after (body.script c exit)).strings.Le S.pool := by
    simpa [script, Context.countdown] using hpool
  exact ((times_round hbody hc hpool' hmeets hready hroom).mono fun t ht => ht.1).leave

/-- The count is pushed before the loop and popped behind it. -/
theorem repeatLoop_simulated {countExpr : Expr} (hty : countExpr.HasType S.symbols .int)
    (hcovers : S.Covers countExpr.uses)
    (heval : countExpr.eval store = some (.word word, store'))
    (htimes : Task.Simulated S exit (.times word.toInt.toNat body) ⟨store', input⟩ events completion
      after) :
    Task.Simulated S exit (.stmt (.repeatLoop countExpr body)) ⟨store, input⟩ events completion
      after := by
  intro c start done s hc hpool hmeets _ hroom
  simp only [peak, Stmt.peak] at hroom
  have hcanonical := (Expr.eval_fits hty (.inl rfl) hcovers hmeets.canonical heval).2
  have hpositive := Expr.one_le_peak heval S.symbols
  have hscript : (Stmt.repeatLoop countExpr body).script c exit =
      c.note "REPEAT STMT" ++ [Action.mint, .mint] ++ countExpr.script (c.minted 2) ++
        script ((c.minted 2).after (countExpr.script (c.minted 2))) exit
          (Context.synthetic c.labels) (Context.synthetic (c.labels + 1))
          (.times word.toInt.toNat body) ++ [Action.pop .t0] := by
    simp [Stmt.script, script, Context.countdown]
  have hopening : ∀ action ∈ c.note "REPEAT STMT" ++ [Action.mint, .mint], action.isInert :=
    List.forall_mem_append.mpr ⟨c.isInert_note _, by simp [Action.isInert]⟩
  rw [script, hscript] at hpool ⊢
  simp only [Context.after_append, Context.after_note, Context.after_cons, Context.after_nil,
    Action.context_mint, Action.context_pop, Context.minted_minted] at hpool
  have hpoolBody : (((c.minted 2).after (countExpr.script (c.minted 2))).after
      (body.script ((c.minted 2).after (countExpr.script (c.minted 2))) exit)).strings.Le
        S.pool := by
    simpa [script, Context.countdown] using hpool
  have hcount := (hmeets.sits.inert hopening).seq fun t ht =>
    (Expr.computes hty (.inl rfl) hcovers hmeets.canonical heval (c.minted 2) t hc
      ((body.strings_le _ exit).trans hpoolBody) ht.sits (by rw [ht.sp]; omega)).mono
        fun u hu => ht.yields hu
  have hloop : S.image.Completes exit (c.note "REPEAT STMT" ++ [Action.mint, .mint] ++
      countExpr.script (c.minted 2) ++ script ((c.minted 2).after (countExpr.script (c.minted 2)))
        exit (Context.synthetic c.labels) (Context.synthetic (c.labels + 1))
        (.times word.toInt.toNat body)) s completion fun u =>
        ∃ t, S.Yields (.word word) store' s t ∧
          S.Follows (s.reg .sp) events completion after t u := by
    refine .seq hcount fun t ht => ?_
    have hsp := ht.sp
    have hbelow := hmeets.sits.below
    have hvalue : t.mem (s.reg .sp) = word := ht.value
    refine (htimes _ _ _ t (by simpa using hc) hpool ⟨ht.sits, hcanonical,
      ht.keeps.input.trans hmeets.input⟩ ⟨?_, ?_⟩ ?_).mono fun u hu => ⟨t, ht, ht.sp_add ▸ hu⟩
    · rw [hsp]
      bv_omega
    · rw [ht.sp_add, hvalue]
    · rw [hsp, peak]
      bv_omega
  cases completion with
  | returned value? =>
      refine (hloop.mono ?_).leave
      rintro u ⟨t, ht, hu⟩
      exact ht.returned hu
  | normal =>
      refine (hloop.reaches.seq ?_).completes
      rintro u ⟨t, ht, hu⟩
      have hsp : u.reg .sp = t.reg .sp := hu.ends
      exact .exec (t := u.pop .t0) (by simp [hsp, ht.sp_add, hmeets.sits.aligned])
        (ht.popped hmeets.sits hu)

end Times

/-! ## Sequences -/

section Sequence

variable {before : Snapshot} {first : Stmt} {rest : List Stmt}

theorem stmts_nil : Task.Simulated S exit (.stmts []) before [] .normal before := by
  intro c start done s _ _ hmeets _ _
  exact (Image.Reaches.exec rfl
    ((Setting.Rests.refl hmeets.sits).follows hmeets.canonical hmeets.input)).completes

theorem stmts_cons (hfirst : Task.Simulated S exit (.stmt first) before events .normal middle)
    (hrest : Task.Simulated S exit (.stmts rest) middle events' completion after) :
    Task.Simulated S exit (.stmts (first :: rest)) before (events ++ events') completion after := by
  intro c start done s hc hpool hmeets _ hroom
  simp only [peak, Stmt.peakAll] at hroom
  simp only [script, Stmt.scriptAll, Context.after_append] at hpool ⊢
  have hpoolFirst := (Stmt.strings_le_all rest _ exit).trans hpool
  refine .seq (hfirst c start done s hc hpoolFirst hmeets trivial (by rw [peak]; omega)).reaches
    fun t ht => ?_
  have hsp : t.reg .sp = s.reg .sp := ht.ends
  refine (hrest _ start done t (by simpa using hc) hpool ht.meets trivial ?_).mono
    fun u hu => ht.trans ?_
  · rw [hsp, peak]
    omega
  · simpa [base, hsp] using hu

theorem stmts_leave
    (hfirst : Task.Simulated S exit (.stmt first) before events (.returned value?) after) :
    Task.Simulated S exit (.stmts (first :: rest)) before events (.returned value?) after := by
  intro c start done s hc hpool hmeets _ hroom
  simp only [peak, Stmt.peakAll] at hroom
  simp only [script, Stmt.scriptAll, Context.after_append] at hpool ⊢
  have hpoolFirst := (Stmt.strings_le_all rest _ exit).trans hpool
  exact (hfirst c start done s hc hpoolFirst hmeets trivial (by rw [peak]; omega)).leave

end Sequence

/-- The code of a well-typed task follows all its runs. -/
theorem Runs.simulated {returnType : Ty} {pc : Nat} (hexit : S.image.target exit = some pc)
    (hreturn : returnType.isVoid = false → returnType.isStorable) {task : Task} {before : Snapshot}
    (h : task.Runs S.symbols before events completion after)
    (hadmitted : task.Admitted S returnType) :
    task.Simulated S exit before events completion after := by
  induction h with
  | assign heval => exact Stmt.assign_simulated hadmitted.self heval
  | increment hlink hfits =>
      cases hadmitted.self.typed with
      | increment hty =>
          exact Stmt.step_simulated (fun _ _ => rfl) rfl hlink hty
            (hadmitted.self.covers _ (by simp [Stmt.exprs])) (by simpa [AluOp.eval] using hfits)
  | decrement hlink hfits =>
      cases hadmitted.self.typed with
      | decrement hty =>
          exact Stmt.step_simulated (fun _ _ => rfl) rfl hlink hty
            (hadmitted.self.covers _ (by simp [Stmt.exprs])) (by simpa [AluOp.eval] using hfits)
  | read hlink hword =>
      cases hadmitted.self.typed with
      | read hty hread =>
          refine Stmt.read_simulated hlink hty hread
            (hadmitted.self.covers _ (by simp [Stmt.exprs])) ?_
          rintro rfl
          cases hty with
          | name hid => exact hword hid
  | write heval =>
      cases hadmitted.self.typed with
      | write hty hwrite =>
          exact Stmt.write_simulated hty hwrite
            (hadmitted.self.covers _ (by simp [Stmt.exprs])) heval
  | ifThen heval htrue _ ih =>
      cases hadmitted.self.typed with
      | ifThen hty =>
          exact Stmt.ifThen_simulated hty (hadmitted.self.covers _ (by simp [Stmt.exprs])) heval
            htrue (ih (hadmitted.body (by simp [Stmt.bodies])))
  | ifThenSkip heval =>
      cases hadmitted.self.typed with
      | ifThen hty =>
          exact Stmt.ifThen_skipped hty (hadmitted.self.covers _ (by simp [Stmt.exprs])) heval rfl
  | ifElse heval _ ih =>
      cases hadmitted.self.typed with
      | ifElse hty =>
          refine Stmt.ifElse_simulated hty (hadmitted.self.covers _ (by simp [Stmt.exprs])) heval
            (ih (hadmitted.body ?_))
          split <;> simp [Stmt.bodies]
  | whileLoop _ ih =>
      cases hadmitted.self.typed with
      | whileLoop hty =>
          exact whileLoop_simulated (ih ⟨⟨hty, hadmitted.self.covers _ (by simp [Stmt.exprs])⟩,
            hadmitted.body (by simp [Stmt.bodies])⟩)
  | repeatLoop heval _ ih =>
      cases hadmitted.self.typed with
      | repeatLoop hty =>
          exact repeatLoop_simulated hty (hadmitted.self.covers _ (by simp [Stmt.exprs])) heval
            (ih (hadmitted.body (by simp [Stmt.bodies])))
  | retValue heval =>
      cases hadmitted.self.typed with
      | retValue hty hvoid =>
          exact Stmt.retValue_simulated hexit hty (hreturn hvoid)
            (hadmitted.self.covers _ (by simp [Stmt.exprs])) heval
  | ret => exact Stmt.ret_simulated hexit _ _
  | done => exact stmts_nil
  | andThen _ _ ihfirst ihrest =>
      rw [Admitted, List.forall_mem_cons] at hadmitted
      exact stmts_cons (ihfirst hadmitted.1) (ihrest hadmitted.2)
  | leave _ ih =>
      rw [Admitted, List.forall_mem_cons] at hadmitted
      exact stmts_leave (ih hadmitted.1)
  | loopDone heval => exact loop_done hadmitted.1.1 hadmitted.1.2 heval rfl
  | loopStep heval htrue _ _ ihbody ihloop =>
      exact loop_step hadmitted.1.1 hadmitted.1.2 heval htrue (ihbody hadmitted.2)
        (ihloop hadmitted)
  | loopLeave heval htrue _ ih =>
      exact loop_leave hadmitted.1.1 hadmitted.1.2 heval htrue (ih hadmitted.2)
  | timesDone => exact times_done
  | timesStep _ _ ihbody ihtimes => exact times_step (ihbody hadmitted) (ihtimes hadmitted)
  | timesLeave _ ih => exact times_leave (ih hadmitted)

end Task

end StackMips
