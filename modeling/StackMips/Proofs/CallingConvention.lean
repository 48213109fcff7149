import Mathlib.Data.List.Nodup
import StackMips.Proofs.Lowering.Ranges
import StackMips.Proofs.Simulation.Frame

/-!
# The calling convention

A caller pushes the arguments and jumps; the prologue of the callee makes them the first words of a
frame, and the epilogue gives the frame back together with the arguments.  So a call ends with the
stack as it was before the first argument, and the caller forgets as many words as it pushed.
-/

namespace StackMips

open Mips

/-! ## Words of the stack -/

namespace Mips.Word

def below (address : Word) (words : Nat) : Word := address - .ofNat 32 (4 * words)

variable {address : Word} {words : Nat}

theorem below_zero (address : Word) : address.below 0 = address := by
  simp [below]

theorem below_below (address : Word) (m n : Nat) :
    (address.below m).below n = address.below (m + n) := by
  rw [below, below, below, Nat.mul_add, BitVec.ofNat_add, BitVec.sub_sub]

theorem sub_word (address : Word) (words : Nat) :
    address.below words - 4#32 = address.below (words + 1) :=
  below_below address words 1

theorem below_add_ofInt (address : Word) (words : Nat) :
    address.below words + .ofInt 32 (4 * words) = address :=
  BitVec.sub_add_cancel _ _

theorem add_ofInt (address : Word) (words : Nat) :
    address + .ofInt 32 (-(4 * words)) = address.below words := by
  rw [below, BitVec.sub_eq_add_neg, BitVec.ofInt_neg]
  rfl

theorem toNat_below (h : 4 * words ≤ address.toNat) :
    (address.below words).toNat = address.toNat - 4 * words := by
  have hlt := address.isLt
  rw [below, BitVec.toNat_sub_of_le]
  · rw [BitVec.toNat_ofNat, Nat.mod_eq_of_lt (by omega)]
  · rw [BitVec.le_def, BitVec.toNat_ofNat, Nat.mod_eq_of_lt (by omega)]
    exact h

theorem aligned_below (h : address.Aligned) (words : Nat) : (address.below words).Aligned := by
  unfold Aligned at h ⊢
  rw [below, BitVec.toNat_sub, BitVec.toNat_ofNat]
  omega

/-- Different words have different addresses, as long as addresses do not wrap. -/
theorem below_ne {i j : Nat} (hi : 4 * i ≤ address.toNat) (hj : 4 * j ≤ address.toNat)
    (hne : i ≠ j) : address.below i ≠ address.below j := by
  intro heq
  have heq := congrArg BitVec.toNat heq
  rw [toNat_below hi, toNat_below hj] at heq
  omega

theorem nodup_below {count : Nat} (h : 4 * count ≤ address.toNat) :
    ((List.range count).map address.below).Nodup := by
  refine List.Nodup.map_on ?_ List.nodup_range
  intro i hi j hj heq
  rw [List.mem_range] at hi hj
  by_contra hne
  exact below_ne (by omega) (by omega) hne heq

end Mips.Word

/-! ## The words of a frame -/

def Arena.addresses (symbols : Arena) (fp : Word) (decls : List VarDecl) : List Word :=
  decls.filterMap fun decl =>
    (symbols.symbol? decl.id).map fun symbol => fp + .ofInt 32 symbol.offset

/-- Consecutive links with offsets one word apart lead to consecutive words. -/
theorem Arena.addresses_eq {symbols : Arena} {fp : Word} {decls : List VarDecl} {start first : Nat}
    (hlinks : decls.map (·.id.link) = (List.range' start decls.length).map some)
    (hslot : ∀ i < decls.length, ∃ symbol, symbols.get? (start + i) = some symbol ∧
      symbol.offset = -(4 * (first + i : Nat))) :
    symbols.addresses fp decls = (List.range' first decls.length).map fp.below := by
  induction decls generalizing start first with
  | nil => rfl
  | cons decl decls ih =>
      rw [List.map_cons, List.length_cons, List.range'_succ, List.map_cons, List.cons.injEq]
        at hlinks
      obtain ⟨hlink, hlinks⟩ := hlinks
      obtain ⟨symbol, hget, hoffset⟩ := hslot 0 (by simp)
      have hsymbol : symbols.symbol? decl.id = some symbol := by
        simpa [symbol?, hlink] using hget
      have hrest : symbols.addresses fp decls =
          (List.range' (first + 1) decls.length).map fp.below := by
        refine ih hlinks fun i hi => ?_
        obtain ⟨symbol, hget, hoffset⟩ := hslot (i + 1) (by simpa using hi)
        rw [← Nat.add_assoc, Nat.add_right_comm] at hget
        exact ⟨symbol, hget, by rw [hoffset, Nat.add_right_comm, Nat.add_assoc]⟩
      rw [addresses, List.filterMap_cons, hsymbol, Option.map_some, hoffset, Nat.add_zero,
        Word.add_ofInt, List.length_cons, List.range'_succ, List.map_cons]
      exact congrArg _ hrest

namespace FnDecl

/-- The words of a frame from the frame pointer down: the parameters, the saved `$ra` and `$fp`, and
the locals. -/
def frameWords (symbols : Arena) (fn : FnDecl) (fp : Word) : List Word :=
  symbols.addresses fp fn.formals ++
    [fp.below fn.formals.length, fp.below (fn.formals.length + 1)] ++
    symbols.addresses fp fn.body.locals

def frameSize (fn : FnDecl) : Nat := fn.formals.length + 2 + fn.body.locals.length

variable {symbols : Arena} {index : Nat} {fn : FnDecl} (h : fn.Framed symbols index) (fp : Word)
include h

theorem Framed.addresses_formals :
    symbols.addresses fp fn.formals = (List.range fn.formals.length).map fp.below := by
  rw [List.range_eq_range']
  refine Arena.addresses_eq h.formalLinks fun i hi => ?_
  obtain ⟨symbol, hget, _, hoffset⟩ := h.formalSlot i hi
  exact ⟨symbol, hget, by simp [hoffset, wordSize]⟩

theorem Framed.addresses_locals : symbols.addresses fp fn.body.locals =
    (List.range' (fn.formals.length + 2) fn.body.locals.length).map fp.below := by
  refine Arena.addresses_eq h.localLinks fun j hj => ?_
  obtain ⟨symbol, hget, _, hoffset⟩ := h.localSlot j hj
  refine ⟨symbol, hget, ?_⟩
  rw [hoffset]
  simp only [wordSize, linkageSize]
  omega

/-- A frame is made of consecutive words. -/
theorem Framed.frameWords_eq :
    fn.frameWords symbols fp = (List.range fn.frameSize).map fp.below := by
  rw [frameWords, h.addresses_formals, h.addresses_locals, frameSize, List.range_add,
    List.range_add, List.map_append, List.map_append, List.range'_eq_map_range]
  simp [List.range_succ]

theorem Framed.frameWords_nodup (hroom : 4 * fn.frameSize ≤ fp.toNat) :
    (fn.frameWords symbols fp).Nodup := by
  rw [h.frameWords_eq]
  exact Word.nodup_below hroom

theorem Framed.lt_of_mem_frameWords (hroom : 4 * fn.frameSize ≤ fp.toNat) :
    ∀ a ∈ fn.frameWords symbols fp, (fp.below fn.frameSize).toNat < a.toNat := by
  intro a ha
  rw [h.frameWords_eq, List.mem_map] at ha
  obtain ⟨i, hi, rfl⟩ := ha
  rw [List.mem_range] at hi
  rw [Word.toNat_below hroom, Word.toNat_below (by omega)]
  omega

end FnDecl

/-! ## Entering a function -/

/-- The arguments of a call have been pushed from left to right, the first one at `top`. -/
structure Mips.State.Passes (s : State) (top : Word) (args : List Word) : Prop where
  sp : s.reg .sp = top.below args.length
  args : ∀ i word, args[i]? = some word → s.mem (top.below i) = word

/-- Pushing a register passes one more argument. -/
theorem Mips.State.Passes.push {s : State} {top : Word} {args : List Word} (h : s.Passes top args)
    (hroom : 4 * args.length ≤ top.toNat) (register : Register) :
    (s.push register).Passes top (args ++ [s.reg register]) where
  sp := by simp [h.sp, Word.sub_word]
  args i word hword := by
    rw [State.mem_push, h.sp]
    rcases Nat.lt_trichotomy i args.length with hlt | rfl | hgt
    · rw [List.getElem?_append_left hlt] at hword
      rw [Function.update_of_ne (Word.below_ne (by omega) hroom (by omega)), h.args i word hword]
    · simpa using hword
    · rw [List.getElem?_eq_none (by rw [List.length_append]; exact hgt)] at hword
      cases hword

/-- What an active function keeps of its caller, which jumped to it from the line `site`. -/
structure FnDecl.Linkage (image : Image) (fn : FnDecl) (top frame : Word) (site : Nat) (s : State) :
    Prop where
  fp : s.reg .fp = top
  savedReturn : s.mem (top.below fn.formals.length) = image.returnAddress (site + 1)
  savedFrame : s.mem (top.below (fn.formals.length + 1)) = frame

namespace Context

theorem exec_storeWord (image : Image) (register : Register) {s : State}
    (h : (s.reg .sp).Aligned) :
    Script.exec image (storeWord register) s = some (s.push register) := by
  simp [storeWord, Image.exec, Image.address, h, State.source, AluOp.eval, wordSize]
  rfl

/-- The lines of a prologue before the label of the function. -/
def heading (c : Context) (name : String) : Script :=
  [Action.emit (.region .text)] ++
    (if c.isEntryPoint name then [.op (.globl (c.functionLabel name))] else []) ++
    c.note "FUNCTION ENTRY"

/-- The lines of a prologue after the label of the function. -/
def entering (c : Context) (info : FunctionInfo) : Script :=
  storeWord .ra ++ storeWord .fp ++
    [c.opWith (.alu .addu .fp .sp (.imm (info.paramsSize + linkageSize))) "set the FP"] ++
    if 0 < info.localsSize then
      [c.opWith (.alu .subu .sp .sp (.imm info.localsSize)) "push space for locals"]
    else []

theorem prologue_eq (c : Context) (name : String) (info : FunctionInfo) :
    c.prologue name info = c.heading name ++
      ([Action.emit (.label (c.functionLabel name) none)] ++ c.entering info) := by
  simp [prologue, heading, entering]

theorem alu_reaches {image : Image} (c : Context) (text : String) {op : AluOp}
    {dst left : Register} {right : Source} {s : State} {word : Word}
    (h : op.eval (s.reg left) (s.source right) = some word) :
    image.Reaches [c.opWith (.alu op dst left right) text] s (· = (s.set dst word).next) :=
  .exec (by simp [Image.exec, h]) rfl

/-- Behind the prologue `$fp` is the address of the first argument, and the words below the
arguments hold what `$ra` and `$fp` were. -/
theorem entering_reaches {image : Image} (c : Context) (fn : FnDecl) (label : Label) {s : State}
    {top : Word} (haligned : top.Aligned) (hsp : s.reg .sp = top.below fn.formals.length) :
    image.Reaches ([Action.emit (.label label none)] ++ c.entering fn.signature) s fun t =>
      t.reg .fp = top ∧ t.reg .sp = top.below fn.frameSize ∧
        t.mem = Function.update (Function.update s.mem (top.below fn.formals.length) (s.reg .ra))
          (top.below (fn.formals.length + 1)) (s.reg .fp) ∧
        t.input = s.input ∧ t.events = s.events := by
  have hstore : Script.exec image
      ([Action.emit (.label label none)] ++ storeWord .ra ++ storeWord .fp) s =
      some ((s.next.push .ra).push .fp) := by
    simp [Script.exec_append, exec_storeWord, hsp, Word.sub_word, Word.aligned_below haligned]
  have hsaved : ((s.next.push .ra).push .fp).reg .sp = top.below (fn.formals.length + 2) := by
    simp [hsp, Word.sub_word]
  have hsize : fn.signature.paramsSize + linkageSize = 4 * (fn.formals.length + 2 : Nat) := by
    simp only [FnDecl.signature, wordSize, linkageSize]
    omega
  have hset : AluOp.eval (((s.next.push .ra).push .fp).reg .sp)
      (((s.next.push .ra).push .fp).source (.imm (fn.signature.paramsSize + linkageSize)))
      .addu = some top := by
    rw [hsaved, hsize]
    exact congrArg some (Word.below_add_ofInt _ _)
  have hshape : ∀ a b c d e : Script, a ++ (b ++ c ++ d ++ e) = (a ++ b ++ c) ++ (d ++ e) := by simp
  rw [entering, hshape]
  refine .seq (.exec hstore rfl) ?_
  rintro _ rfl
  refine .seq (alu_reaches c _ hset) ?_
  rintro _ rfl
  split
  · have hlocals : AluOp.eval ((((s.next.push .ra).push .fp).set .fp top).next.reg .sp)
        ((((s.next.push .ra).push .fp).set .fp top).next.source (.imm fn.signature.localsSize))
        .subu = some (top.below fn.frameSize) := by
      rw [State.reg_next, State.reg_set, if_neg (by decide), hsaved]
      exact congrArg some (Word.below_below _ _ _)
    refine (alu_reaches c _ hlocals).mono ?_
    rintro _ rfl
    simp [hsp, Word.sub_word]
  · next hnone =>
      have hframe : fn.frameSize = fn.formals.length + 2 := by
        simp only [FnDecl.signature, wordSize] at hnone
        rw [FnDecl.frameSize]
        omega
      refine .exec (Script.exec_nil _ _) ?_
      simp [hsp, Word.sub_word, hframe]

end Context

/-- A call of the function from the state `s` has set up its frame: every variable has a word of its
own above `$sp`, and the parameters are the arguments. -/
structure FnDecl.Entered (image : Image) (symbols : Arena) (fn : FnDecl) (top : Word)
    (args : List Word) (s t : State) : Prop extends
    fn.Linkage image top (s.reg .fp) s.pc t where
  formals : (symbols.addresses top fn.formals).map t.mem = args
  locals : (symbols.addresses top fn.body.locals).length = fn.body.locals.length
  nodup : (fn.frameWords symbols top).Nodup
  above : ∀ a ∈ fn.frameWords symbols top, (t.reg .sp).toNat < a.toNat
  mem : ∀ a, a ≠ top.below fn.formals.length → a ≠ top.below (fn.formals.length + 1) →
    t.mem a = s.mem a
  input : t.input = s.input
  events : t.events = s.events

/-- Calling a function sets up its frame. -/
theorem FnDecl.Framed.enters {symbols : Arena} {index : Nat} {fn : FnDecl}
    (h : fn.Framed symbols index) {c : Context} {image : Image} {pc : Nat} {s : State} {top : Word}
    {args : List Word} {comment : Option String}
    (hat : image.At pc (c.prologue fn.id.name fn.signature).lines)
    (hcall : image.lines[s.pc]? = some (.op ⟨.jal (c.functionLabel fn.id.name), comment⟩))
    (haligned : top.Aligned) (hroom : 4 * fn.frameSize ≤ top.toNat)
    (hcount : args.length = fn.formals.length) (hpasses : s.Passes top args) :
    ∃ t, image.Steps s t ∧ t.pc = pc + (c.prologue fn.id.name fn.signature).lines.length ∧
      fn.Entered image symbols top args s t := by
  rw [Context.prologue_eq, Script.lines_append, Image.at_append] at hat
  obtain ⟨-, hat⟩ := hat
  have htarget := Image.target_of_line (Image.at_cons.mp hat).1
  let entry := (s.set .ra (image.returnAddress (s.pc + 1))).jump
    (pc + (c.heading fn.id.name).lines.length)
  have hstep : image.step s = some entry := by
    rw [Image.step, hcall]
    exact congrArg (Option.map _) htarget
  have hsp : entry.reg .sp = top.below fn.formals.length := hcount ▸ hpasses.sp
  obtain ⟨t, hperforms, hfp, hnew, hmem, hinput, hevents⟩ :=
    c.entering_reaches fn _ haligned hsp hat
  have hsize : fn.formals.length + 2 ≤ fn.frameSize := Nat.le_add_right _ _
  refine ⟨t, .head hstep hperforms.steps, ?_, ⟨hfp, ?_, ?_⟩, ?_, ?_, h.frameWords_nodup top hroom,
    ?_, ?_, hinput, hevents⟩
  · rw [hperforms.pc, c.prologue_eq, Script.lines_append (c.heading _), List.length_append,
      ← Nat.add_assoc]
    rfl
  · rw [hmem, Function.update_of_ne (Word.below_ne (by omega) (by omega) (by omega)),
      Function.update_self]
    simp [entry]
  · rw [hmem, Function.update_self]
    simp [entry]
  · rw [h.addresses_formals, List.map_map]
    refine List.ext_getElem (by simp [hcount]) ?_
    intro i _ hi
    -- The saved words lie below the arguments.
    have hlt : i < fn.formals.length := hcount ▸ hi
    rw [List.getElem_map, List.getElem_range, Function.comp_apply, hmem,
      Function.update_of_ne (Word.below_ne (by omega) (by omega) (by omega)),
      Function.update_of_ne (Word.below_ne (by omega) (by omega) (by omega))]
    exact hpasses.args i _ (List.getElem?_eq_getElem hi)
  · rw [h.addresses_locals, List.length_map, List.length_range']
  · intro a ha
    rw [hnew]
    exact h.lt_of_mem_frameWords top hroom a ha
  · intro a hreturn hframe
    rw [hmem, Function.update_of_ne hframe, Function.update_of_ne hreturn]
    rfl

/-! ## Leaving a function -/

/-- A call from the line `site` is over: the stack is back at `top`, the frame is the caller's, and
the result of the function is still in `$v0`. -/
structure Mips.State.Returned (u v : State) (top frame : Word) (site : Nat) : Prop where
  pc : v.pc = site + 1
  sp : v.reg .sp = top
  fp : v.reg .fp = frame
  v0 : v.reg .v0 = u.reg .v0
  mem : v.mem = u.mem
  input : v.input = u.input
  events : v.events = u.events

namespace Context

def restoring (c : Context) (exit : Label) (info : FunctionInfo) : Script :=
  [.emit (.label exit none),
    c.opWith (.lw .ra (.indexed (-info.paramsSize) .fp)) "load return address",
    c.opWith (.move .t0 .fp) "save control link",
    c.opWith (.lw .fp (.indexed (-(info.paramsSize + wordSize)) .fp)) "restore FP",
    c.opWith (.move .sp .t0) "restore SP"]

theorem epilogue_eq (c : Context) (exit : Label) {name : String} (info : FunctionInfo)
    (h : c.isEntryPoint name = false) :
    c.epilogue exit name info =
      c.note "FUNCTION EXIT" ++ (c.restoring exit info ++ [c.opWith (.jr .ra) "return"]) := by
  simp [epilogue, restoring, h]

theorem exec_lw {image : Image} {s : State} {address : Address} {a : Word} (c : Context)
    (dst : Register) (text : String) (haddress : image.address s address = a) (h : a.Aligned) :
    (c.opWith (.lw dst address) text).exec image s = some (s.set dst (s.mem a)).next := by
  subst haddress
  rw [exec_opWith, Image.exec, if_pos h]
  exact if_pos rfl

theorem exec_move (image : Image) (s : State) (c : Context) (dst src : Register) (text : String) :
    (c.opWith (.move dst src) text).exec image s = some (s.set dst (s.reg src)).next :=
  if_pos rfl

/-- Wherever `$sp` is, the registers of the caller are restored. -/
theorem restoring_reaches {image : Image} {fn : FnDecl} {top frame : Word} {site : Nat} {u : State}
    (h : fn.Linkage image top frame site u) (haligned : top.Aligned) (c : Context) (exit : Label) :
    image.Reaches (c.restoring exit fn.signature) u fun t =>
      t.reg .ra = image.returnAddress (site + 1) ∧ t.reg .sp = top ∧ t.reg .fp = frame ∧
        t.reg .v0 = u.reg .v0 ∧ t.mem = u.mem ∧ t.input = u.input ∧ t.events = u.events := by
  have hsize : fn.signature.paramsSize + wordSize = 4 * (fn.formals.length + 1 : Nat) := by
    simp only [FnDecl.signature, wordSize]
    omega
  have hreturn : ∀ s : State, s.reg .fp = top →
      image.address s (.indexed (-fn.signature.paramsSize) .fp) = top.below fn.formals.length := by
    intro s hs
    rw [Image.address, hs]
    exact Word.add_ofInt _ _
  have hframe : ∀ s : State, s.reg .fp = top →
      image.address s (.indexed (-(fn.signature.paramsSize + wordSize)) .fp) =
        top.below (fn.formals.length + 1) := by
    intro s hs
    rw [Image.address, hs, hsize]
    exact Word.add_ofInt _ _
  let loaded := (u.next.set .ra (u.mem (top.below fn.formals.length))).next
  have hloaded : loaded.reg .fp = top := by simp [loaded, h.fp]
  let saved := (loaded.set .t0 top).next
  let restored := (saved.set .fp (saved.mem (top.below (fn.formals.length + 1)))).next
  refine .exec (t := (restored.set .sp (restored.reg .t0)).next) ?_ ?_
  · rw [restoring, Script.exec_cons, Action.exec_label, Option.bind_some, Script.exec_cons,
      c.exec_lw _ _ (hreturn u.next h.fp) (Word.aligned_below haligned _), Option.bind_some,
      Script.exec_cons, exec_move, Option.bind_some, Script.exec_cons]
    change Option.bind (Action.exec image (loaded.set .t0 (loaded.reg .fp)).next _) _ = _
    rw [hloaded, c.exec_lw _ _ (hframe saved (by simp [saved, hloaded]))
      (Word.aligned_below haligned _), Option.bind_some, Script.exec_cons, exec_move,
      Option.bind_some, Script.exec_nil]
  · simp [restored, saved, loaded, h.savedReturn, h.savedFrame]

end Context

/-- From its exit label, wherever `$sp` is, a function gets back to its caller. -/
theorem FnDecl.Linkage.returns {image : Image} {fn : FnDecl} {top frame : Word} {site : Nat}
    {u : State} (h : fn.Linkage image top frame site u) {c : Context} {exit label : Label}
    {comment : Option String} {pc : Nat} (hentry : c.isEntryPoint fn.id.name = false)
    (hat : image.At pc (c.epilogue exit fn.id.name fn.signature).lines)
    (hexit : image.target exit = some u.pc) (haligned : top.Aligned)
    (hsite : image.lines[site]? = some (.op ⟨.jal label, comment⟩)) :
    ∃ v, image.Steps u v ∧ u.Returned v top frame site := by
  rw [c.epilogue_eq exit _ hentry, Script.lines_append, Image.at_append] at hat
  obtain ⟨-, hat⟩ := hat
  have htarget := Image.target_of_line (Image.at_cons.mp hat).1
  rw [Option.some.inj (htarget.symm.trans hexit)] at hat
  obtain ⟨t, hperforms, hra, hsp, hfp, hv0, hmem, hinput, hevents⟩ :=
    Context.restoring_reaches h haligned c exit
      (Image.at_append.mp (Script.lines_append _ _ ▸ hat)).1
  have hjump : image.step t = some (t.jump (site + 1)) := by
    rw [Image.step_of_at (hperforms.at_of_append hat)]
    simp [Image.execLine, Line.instr?, Image.exec, hra, image.lineAt_returnAddress hsite]
  exact ⟨t.jump (site + 1), hperforms.steps.tail hjump, rfl, hsp, hfp, hv0, hmem, hinput, hevents⟩

/-! ## Calls -/

def Gen.Emits (m : Gen Unit) (g : Generator) (lines : List Line) : Prop :=
  ∃ g', m g = .ok () g' ∧ g'.lines.toList = g.lines.toList ++ lines

namespace Gen

variable {name : String} {info : FunctionInfo} {g : Generator} {lines : List Line}

theorem emits_iff_of_performs {m : Gen Unit} {script : Script} (h : Performs m g script []) :
    Emits m g lines ↔ lines = script.lines := by
  have h : m g = .ok () (g.perform script) := h
  constructor
  · rintro ⟨g', hrun, hlines⟩
    cases h.symm.trans hrun
    rw [Generator.lines_perform] at hlines
    exact (List.append_cancel_left hlines).symm
  · rintro rfl
    exact ⟨_, h, Generator.lines_perform g script⟩

theorem prologue_emits_iff (h : info.Fits) :
    Emits (prologue name info) g lines ↔ lines = (g.context.prologue name info).lines :=
  emits_iff_of_performs (prologue_performs name h g)

theorem epilogue_emits_iff (h : info.Fits) :
    Emits (epilogue name info) g lines ↔ lines = (g.context.epilogue g.exit name info).lines :=
  emits_iff_of_performs (epilogue_performs name h g)

end Gen

/-! ## Programs -/

namespace Resolved.Emits

variable {resolved : Resolved} {assembly : Assembly} (h : resolved.Emits assembly) {image : Image}
  (himage : image.lines = assembly.lines)
include h himage

theorem at_visit {visit : Decl × Generator}
    (hvisit : visit ∈ Decl.visits { context := resolved.context } resolved.program.decls) :
    ∃ pc, image.At pc (visit.1.script visit.2.context).lines := by
  obtain ⟨_, hlines, hvisits⟩ := h.visits rfl
  obtain ⟨before, behind, heq⟩ := List.append_of_mem hvisit
  rw [heq, List.flatMap_append, List.flatMap_cons, (hvisits visit hvisit).2.2.2] at hlines
  exact ⟨_, Image.at_of_lines (himage.trans hlines)⟩

/-- The lines of a declaration stand together in an image of the program. -/
theorem exists_at {decl : Decl} (hdecl : decl ∈ resolved.program.decls) :
    ∃ c : Context, c.Like resolved.context ∧ ∃ pc, image.At pc (decl.script c).lines := by
  obtain ⟨hfst, _, hvisits⟩ := h.visits rfl
  rw [← hfst] at hdecl
  obtain ⟨visit, hvisit, rfl⟩ := List.mem_map.mp hdecl
  exact ⟨_, (hvisits visit hvisit).2.1, h.at_visit himage hvisit⟩

end Resolved.Emits

namespace Program

/-- Every function of a program that was analyzed without a report is called as follows.  The caller
pushes one word for each formal, the first one at `top`, and jumps; the prologue sets up the frame;
and from every later state at the exit of the function in which the linkage is intact, the epilogue
gets back behind the jump, with the frame of the caller and the stack at `top` again. -/
theorem call_enters_and_returns {program : Program} {options : Options} {resolved : Resolved}
    (hanalyze : program.analyze { options } = .done resolved []) {fn : FnDecl}
    (hfn : fn ∈ resolved.program.functions) :
    ∃ info, fn.info resolved.context.symbols = .ok info ∧
      (∀ call ∈ resolved.program.calls, call.1.link = fn.id.link →
        call.1.name = fn.id.name ∧ call.2.length = fn.formals.length) ∧
      (fn.formals.length + 2 < 2 ^ 29 → ∀ g : Generator,
        (∃ lines, Gen.Emits (Gen.prologue fn.id.name info) g lines) ∧
          ∃ lines, Gen.Emits (Gen.epilogue fn.id.name info) g lines) ∧
      ∀ (before behind : Generator) (entering leaving : List Line),
        before.context.options = options → behind.context.options = options →
        Gen.Emits (Gen.prologue fn.id.name info) before entering →
        Gen.Emits (Gen.epilogue fn.id.name info) behind leaving →
        ∀ (image : Image) (pc pc' : Nat), image.At pc entering → image.At pc' leaving →
          ∀ (s : State) (top : Word) (args : List Word) (comment : Option String),
            image.lines[s.pc]? =
              some (.op ⟨.jal (before.context.functionLabel fn.id.name), comment⟩) →
            top.Aligned → 4 * fn.frameSize ≤ top.toNat → args.length = fn.formals.length →
            s.Passes top args →
            ∃ t, image.Steps s t ∧ t.pc = pc + entering.length ∧
              fn.Entered image resolved.context.symbols top args s t ∧
              (fn.id.name ≠ options.entryPoint → ∀ u : State, image.target behind.exit = some u.pc →
                fn.Linkage image top (s.reg .fp) s.pc u →
                ∃ v, image.Steps u v ∧ u.Returned v top (s.reg .fp) s.pc ∧
                  v.reg .sp = s.reg .sp + .ofNat 32 (4 * args.length)) := by
  have hclean := (program.clean_of_analyze hanalyze).2
  obtain ⟨index, _, hframed, _⟩ := hclean.functions fn hfn
  refine ⟨fn.signature, hframed.info_eq, fun call => hclean.call_of_link hfn, ?_, ?_⟩
  · intro hcount g
    have hfits : fn.signature.Fits := by
      constructor <;> simp only [FnDecl.signature, linkageSize, wordSize] <;> omega
    exact ⟨⟨_, (Gen.prologue_emits_iff hfits).mpr rfl⟩, _, (Gen.epilogue_emits_iff hfits).mpr rfl⟩
  · intro before behind entering leaving hbefore hbehind hentering hleaving image pc pc' hat hat' s
      top args comment hcall haligned hroom hcount hpasses
    have hfits : fn.signature.Fits := by
      obtain ⟨_, hrun, _⟩ := hentering
      refine Gen.fits_of_prologue ?_ hrun
      simp only [FnDecl.signature, wordSize]
      omega
    obtain rfl := (Gen.prologue_emits_iff hfits).mp hentering
    obtain rfl := (Gen.epilogue_emits_iff hfits).mp hleaving
    obtain ⟨t, hsteps, hpc, hentered⟩ := hframed.enters hat hcall haligned hroom hcount hpasses
    refine ⟨t, hsteps, hpc, hentered, fun hentry u hexit hlinkage => ?_⟩
    have hentry : behind.context.isEntryPoint fn.id.name = false := by
      simpa [Context.isEntryPoint, hbehind] using hentry
    obtain ⟨v, hsteps, hreturned⟩ := hlinkage.returns hentry hat' hexit haligned hcall
    refine ⟨v, hsteps, hreturned, ?_⟩
    rw [hreturned.sp, hpasses.sp, Word.below, BitVec.sub_add_cancel]

/-- A function of two formals and a local in a nested block, with the links of its names. -/
def differenceFn (difference a b c : Option SymbolId) : FnDecl where
  returnType := .int
  id := ⟨"difference", ⟨1, 5⟩, difference⟩
  formals := [⟨.int, ⟨"a", ⟨1, 20⟩, a⟩⟩, ⟨.int, ⟨"b", ⟨1, 27⟩, b⟩⟩]
  body := ⟨[], [
    .ifThen (.bool true ⟨2, 6⟩) ⟨[⟨.int, ⟨"c", ⟨2, 18⟩, c⟩⟩], [
      .assign (.name ⟨"c", ⟨3, 5⟩, c⟩) (.binary .sub
        (.name ⟨"a", ⟨3, 9⟩, a⟩) (.name ⟨"b", ⟨3, 13⟩, b⟩)),
      .ret (some (.name ⟨"c", ⟨4, 12⟩, c⟩)) ⟨4, 5⟩]⟩,
    .ret (some (.int 0 ⟨6, 10⟩)) ⟨6, 3⟩]⟩

def difference : Program where
  decls := [.fn (differenceFn none none none none), .fn ⟨.void, ⟨"main", ⟨8, 6⟩, none⟩, [], ⟨[], [
    .write (.call ⟨"difference", ⟨9, 9⟩, none⟩ [.int 7 ⟨9, 20⟩, .int 4 ⟨9, 23⟩])]⟩⟩]

def differenceLinked : FnDecl := differenceFn (some 0) (some 1) (some 2) (some 3)

def differenceGenerator : Generator where
  context := (difference.linked {}).context
  exit := "_difference_Exit"

def differenceEntering : List Line :=
  (differenceGenerator.context.prologue "difference" differenceLinked.signature).lines

def differenceLeaving : List Line :=
  (differenceGenerator.context.epilogue "_difference_Exit" "difference"
    differenceLinked.signature).lines

/-- The ends of the function, and a call of it. -/
def differenceImage : Image :=
  .load (differenceEntering ++ (differenceLeaving ++ [.op { operation := .jal "_difference" }]))
    (by decide +kernel) (by decide +kernel)

/-- The arguments 7 and 4 have been pushed. -/
def differenceCall : State where
  pc := differenceEntering.length + differenceLeaving.length
  reg
    | .sp => 0x7fffeff0
    | .fp => 0x7fffeffc
    | _ => 0
  mem address := if address = 0x7fffeff8 then 7 else if address = 0x7fffeff4 then 4 else 0
  input := []
  events := []

theorem difference_passes : differenceCall.Passes 0x7fffeff8 [7, 4] where
  sp := by decide
  args i word hword := by
    match i with
    | 0 =>
        cases hword
        decide
    | 1 =>
        cases hword
        decide

/-- The call sets up a frame of five words, and leaving it again discards them and the arguments. -/
theorem difference_enters_and_returns : ∃ t, differenceImage.Steps differenceCall t ∧
    t.reg .fp = 0x7fffeff8 ∧
    ((difference.linked {}).context.symbols.addresses 0x7fffeff8 differenceLinked.formals).map
      t.mem = [7, 4] ∧
    ∃ u v, u.mem = t.mem ∧ differenceImage.Steps u v ∧ v.pc = differenceCall.pc + 1 ∧
      v.reg .fp = 0x7fffeffc ∧ v.reg .sp = 0x7fffeff0 + 8 := by
  have hanalyze : difference.analyze {} = .done (difference.linked {}) [] :=
    analyze_of_check sound_empty (by decide) (by decide) rfl
  have hfn : differenceLinked ∈ (difference.linked {}).program.functions := .head _
  obtain ⟨info, hinfo, -, hemits, henters⟩ := call_enters_and_returns hanalyze hfn
  have hinfo : differenceLinked.signature = info := Except.ok.inj hinfo
  subst hinfo
  have hfits : differenceLinked.signature.Fits := ⟨by decide, by decide⟩
  have hlines : differenceImage.At 0 (differenceEntering ++ (differenceLeaving ++ _)) :=
    List.prefix_refl _
  rw [Image.at_append, Image.at_append] at hlines
  obtain ⟨t, hsteps, -, hentered, hreturns⟩ := henters differenceGenerator differenceGenerator _ _
    rfl rfl ((Gen.prologue_emits_iff hfits).mpr rfl) ((Gen.epilogue_emits_iff hfits).mpr rfl)
    differenceImage _ _ hlines.1 hlines.2.1 differenceCall 0x7fffeff8 [7, 4] none
    (by decide +kernel) (by decide) (by decide) rfl difference_passes
  obtain ⟨pc, hpc⟩ : ∃ pc, differenceImage.target differenceGenerator.exit = some pc :=
    Option.isSome_iff_exists.mp (by decide +kernel)
  obtain ⟨v, hback, hreturned, hsp⟩ := hreturns (by decide) (t.jump pc) hpc
    ⟨hentered.fp, hentered.savedReturn, hentered.savedFrame⟩
  exact ⟨t, hsteps, hentered.fp, hentered.formals, t.jump pc, v, rfl, hback, hreturned.pc,
    hreturned.fp, hsp⟩

end Program

end StackMips
