import StackMips.Proofs.Lowering.Program
import StackMips.Proofs.Simulation.Frame
import StackMips.Proofs.Simulation.Stmt

/-!
# Code of blocks preserves meaning

The generator emits code for every block of a program that was analyzed without a report.  Wherever
this code is loaded, the machine follows the runs of the block: the same words are read and written
in the same order, and the variables of the function hold the same values in the end.
-/

namespace StackMips

open Mips

/-- An image that has all that code emitted next refers to: the exit of the function, the texts that
are known so far, and the global variables. -/
structure Generator.Hosted (g : Generator) (fn : FnDecl) (image : Image) : Prop where
  exit : ∃ pc, image.target g.exit = some pc
  texts : ∀ text label, g.context.strings.lookup text = some label →
    ∃ comment, .label label (some ⟨.asciiz text, comment⟩) ∈ image.lines
  globals : fn.Stored image g.context.symbols

namespace FnDecl

/-- The variables of the function hold the values of the source, booleans 0 or 1, and both have the
same input. -/
structure Agrees (image : Image) (symbols : Arena) (fn : FnDecl) (snapshot : Snapshot) (s : State) :
    Prop where
  values : ∀ link a, fn.Place image symbols (s.reg .fp) link a → s.mem a = snapshot.store link
  booleans : ∀ link a, fn.Place image symbols (s.reg .fp) link a →
    ∀ symbol, symbols.get? link = some symbol → symbol.ty = .bool →
      snapshot.store link = 0 ∨ snapshot.store link = 1
  input : s.input = snapshot.input

/-- The machine got from one state to another as the source did.  A normal end is at the line
`behind` with the stack as it was; a return is at the exit with its value in `$v0`. -/
structure Follows (image : Image) (symbols : Arena) (fn : FnDecl) (floor : Nat) (exit : Label)
    (behind : Nat) (events : List Event) (completion : Completion) (after : Snapshot)
    (s t : State) : Prop where
  steps : image.Steps s t
  events : t.events = s.events ++ events
  agrees : fn.Agrees image symbols after t
  fp : t.reg .fp = s.reg .fp
  mem : ∀ a : Word, (s.reg .sp).toNat < a.toNat ∨ a.toNat ≤ floor →
    (∀ link, ¬fn.Place image symbols (s.reg .fp) link a) → t.mem a = s.mem a
  normal : completion = .normal → t.pc = behind ∧ t.reg .sp = s.reg .sp
  returned : ∀ value?, completion = .returned value? → image.target exit = some t.pc ∧
    ∀ word, value? = some (.word word) → t.reg .v0 = word

end FnDecl

namespace Resolved.Clean

variable {resolved : Resolved} (h : resolved.Clean)
include h

theorem isVariable {link : Nat} {symbol : Symbol}
    (hget : resolved.context.symbols.get? link = some symbol) (hty : symbol.ty.isStorable) :
    symbol.IsVariable := by
  rcases h.symbols link symbol hget with hvariable | hstruct | ⟨fn, _, hframed⟩
  · exact hvariable
  · have hdef := hstruct.ty
    cases hcase : symbol.ty <;> simp_all [Ty.isStructDef, Ty.isStorable]
  · obtain rfl := Option.some.inj (hframed.symbol.symm.trans hget)
    cases hty

variable {fn : FnDecl} (hfn : fn ∈ resolved.program.functions) {block : Block}
  (hblock : block ∈ fn.body.blocks)
include hfn hblock

theorem block_wellTyped :
    block.WellTyped resolved.context.symbols fn.returnType.toTy :=
  fun node hnode => h.typed fn hfn node (Block.nodes_subset_of_blocks hblock hnode)

theorem block_inGrammar : block.InGrammar := by
  intro stmt hstmt node hnode
  have hmem : node ∈ fn.body.nodes := by
    refine Block.nodes_subset_of_blocks hblock ?_
    rw [Block.nodes_eq]
    exact List.mem_flatMap.mpr ⟨stmt, hstmt, hnode⟩
  rw [Block.nodes_eq] at hmem
  obtain ⟨outer, houter, hnode⟩ := List.mem_flatMap.mp hmem
  exact h.grammar fn hfn outer houter node hnode

theorem block_lower (hfield : block.hasField = false) {g : Generator}
    (hg : g.context.symbols = resolved.context.symbols) :
    block.lower g = .ok () (g.perform (block.script g.context g.exit)) := by
  have hgrammar := h.block_inGrammar hfn hblock
  have hperforms :=
    (Block.lowers h.complete.typed fn.returnType.isReturnable_toTy (h.block_wellTyped hfn hblock)
      hgrammar).performs g hg
  have hblocked : block.blocked = [] := by
    rw [Block.blocked_eq_nil_iff_of fun stmt hstmt => Stmt.blocked_eq_nil_iff (hgrammar stmt hstmt)]
    simpa [Block.hasField] using hfield
  rwa [hblocked] at hperforms

theorem block_admitted {S : Setting} (hS : S.symbols = resolved.context.symbols)
    (hcovers : S.Covers fn.body.uses) :
    Task.Admitted S fn.returnType.toTy (.stmts block.stmts) := by
  intro stmt hstmt node hnode
  have hmem : node ∈ block.nodes := by
    rw [Block.nodes_eq]
    exact List.mem_flatMap.mpr ⟨stmt, hstmt, hnode⟩
  refine ⟨hS ▸ h.block_wellTyped hfn hblock node hmem, fun e he => hcovers.mono ?_⟩
  intro id hid
  refine List.mem_flatMap.mpr ⟨e, ?_, hid⟩
  exact List.mem_flatMap.mpr ⟨node, Block.nodes_subset_of_blocks hblock hmem, he⟩

end Resolved.Clean

/-- Code of a block of a clean program follows the runs of the block. -/
theorem Resolved.Clean.block_follows {resolved : Resolved} (h : resolved.Clean) {fn : FnDecl}
    (hfn : fn ∈ resolved.program.functions) {block : Block} (hblock : block ∈ fn.body.blocks)
    {g : Generator} (hg : g.context.symbols = resolved.context.symbols) {image : Image}
    (hhosted : g.Hosted fn image) {floor : Nat} {s : State}
    (hat : image.At s.pc (block.script g.context g.exit).lines)
    (hactive : fn.Active image resolved.context.symbols floor s)
    (hroom : floor + 4 * block.peak resolved.context.symbols ≤ (s.reg .sp).toNat)
    {before after : Snapshot} {events : List Event} {completion : Completion}
    (hagrees : fn.Agrees image resolved.context.symbols before s)
    (hruns : block.Runs resolved.context.symbols before events completion after) :
    ∃ t, fn.Follows image resolved.context.symbols floor g.exit
      (s.pc + (block.script g.context g.exit).lines.length) events completion after s t := by
  obtain ⟨index, globals, hframed, hscoped⟩ := h.functions fn hfn
  obtain ⟨pc, hexit⟩ := hhosted.exit
  have hstores := Script.stores_composes.block block g.exit g.context
  have hseparates := hframed.separates hscoped
  have hstored : fn.Stored image resolved.context.symbols := hg ▸ hhosted.globals
  have hclear := hactive.clear hseparates hstored (by omega)
  let S := FnDecl.setting hseparates hclear h.complete.typed hstored _
    (hstores.texts hat hhosted.texts)
  have hcovers : S.Covers fn.body.uses :=
    FnDecl.covers_uses hseparates id fun _ _ hget hty => h.isVariable hget hty
  have hreturn : fn.returnType.toTy.isVoid = false → fn.returnType.toTy.isStorable := by
    cases fn.returnType <;> simp [TypeName.toTy, Ty.isVoid, Ty.isStorable]
  have hsimulated := Task.Runs.simulated (S := S) hexit hreturn hruns
    (h.block_admitted hfn hblock rfl hcovers)
  have habove : floor ≤ (s.reg .sp).toNat := by omega
  have hmeets : S.Meets before s :=
    ⟨⟨rfl, Nat.le_refl _, habove, hactive.sp_aligned, fun hplace => hagrees.values _ _ hplace⟩,
      hagrees.booleans, hagrees.input⟩
  have hscript := Block.script_eq g.context g.exit block
  rw [Block.peak_eq] at hroom
  have hpool :
      (g.context.after (Task.script g.context g.exit "" "" (.stmts block.stmts))).strings.Le
        S.pool := by
    rw [Task.script, ← hscript]
    exact .refl _
  have hcompletes := hsimulated g.context "" "" s hg hpool hmeets trivial hroom
  rw [Task.script, ← hscript] at hcompletes
  obtain ⟨t, hsteps, hlands, hfollows⟩ := hcompletes hat
  have hfp : t.reg .fp = s.reg .fp := hfollows.meets.sits.fp
  refine ⟨t, hsteps, hfollows.events, ⟨?_, ?_, hfollows.meets.input⟩, hfp, hfollows.mem, ?_, ?_⟩
  · intro link a hplace
    rw [hfp] at hplace
    exact hfollows.meets.sits.holds hplace
  · intro link a hplace
    rw [hfp] at hplace
    exact hfollows.meets.canonical link a hplace
  · rintro rfl
    exact ⟨hlands, hfollows.ends⟩
  · rintro value? rfl
    refine ⟨hlands, ?_⟩
    rintro word rfl
    exact hfollows.ends

namespace Program

/-- The generator emits code for every block without field accesses of a program that was analyzed
without a report.  Wherever this code is loaded, the machine follows every run of the block that
makes no call and in which nothing traps. -/
theorem lower_block_follows {program : Program} {options : Options} {resolved : Resolved}
    (hanalyze : program.analyze { options } = .done resolved []) {fn : FnDecl}
    (hfn : fn ∈ resolved.program.functions) {block : Block} (hblock : block ∈ fn.body.blocks)
    (hfield : block.hasField = false) {g : Generator}
    (hg : g.context.symbols = resolved.context.symbols) :
    ∃ g' code, block.lower g = .ok () g' ∧ g'.lines.toList = g.lines.toList ++ code ∧
      ∀ (image : Image) (floor : Nat) (s : State), g.Hosted fn image → image.At s.pc code →
        fn.Active image resolved.context.symbols floor s →
        floor + 4 * block.peak resolved.context.symbols ≤ (s.reg .sp).toNat →
        ∀ before events completion after, fn.Agrees image resolved.context.symbols before s →
          block.Runs resolved.context.symbols before events completion after →
          ∃ t, fn.Follows image resolved.context.symbols floor g.exit (s.pc + code.length) events
            completion after s t := by
  have hclean := (program.clean_of_analyze hanalyze).2
  refine ⟨_, _, hclean.block_lower hfn hblock hfield hg, Generator.lines_perform _ _, ?_⟩
  intro image floor s hhosted hat hactive hroom before events completion after hagrees hruns
  exact hclean.block_follows hfn hblock hg hhosted hat hactive hroom hagrees hruns

/-- A function that adds up two numbers and returns early at a zero, with the links of its names. -/
def tallyMain (total main x : Option SymbolId) : FnDecl where
  returnType := .void
  id := ⟨"main", ⟨2, 6⟩, main⟩
  formals := []
  body := ⟨[⟨.int, ⟨"x", ⟨3, 7⟩, x⟩⟩], [
    .repeatLoop (.int 2 ⟨4, 11⟩) ⟨[], [
      .read (.name ⟨"x", ⟨5, 10⟩, x⟩),
      .ifThen (.binary .eq (.name ⟨"x", ⟨6, 9⟩, x⟩) (.int 0 ⟨6, 14⟩)) ⟨[], [
        .write (.str "zero" ⟨7, 13⟩), .ret none ⟨8, 7⟩]⟩,
      .assign (.name ⟨"total", ⟨10, 5⟩, total⟩) (.binary .add
        (.name ⟨"total", ⟨10, 13⟩, total⟩) (.name ⟨"x", ⟨10, 21⟩, x⟩))]⟩,
    .write (.name ⟨"total", ⟨12, 9⟩, total⟩)]⟩

def tally : Program where
  decls := [.var ⟨.int, ⟨"total", ⟨1, 5⟩, none⟩⟩, .fn (tallyMain none none none)]

def tallyLinked : FnDecl := tallyMain (some 0) (some 1) (some 2)

def tallyGenerator : Generator where
  context := (tally.linked {}).context
  exit := "main_Exit"

def tallyCode : List Line :=
  match tallyLinked.body.lower tallyGenerator with
  | .ok _ g => g.lines.toList
  | .error _ _ => []

def tallyLines : List Line :=
  [.region .data, .label "_total" (some { operation := .space wordSize })] ++
    (tallyCode ++ [.label "main_Exit" none])

def tallyImage : Image := .load tallyLines (by decide +kernel) (by decide +kernel)

def tallyStart : State where
  pc := 2
  reg
    | .sp => 0x7fffeff0
    | .fp => 0x7fffeffc
    | _ => 0
  mem _ := 0
  input := [5, 0]
  events := []

/-- The first number is added up, the second one ends the run. -/
theorem tally_runs : ∃ events after, tallyLinked.body.Runs (tally.linked {}).context.symbols
    ⟨fun _ => 0, [5, 0]⟩ events (.returned none) after ∧
      events = [.read 5, .read 0, .text "zero"] ∧ after.store 0 = 5 := by
  have hx : ∀ {word : Word} {pos : Pos},
      (tally.linked {}).context.symbols.ty? ⟨"x", pos, some 2⟩ = some .bool →
        word = 0 ∨ word = 1 := by
    intro word pos h
    exact nomatch (show some Ty.int = some .bool from h)
  exact ⟨_, _, .leave (.repeatLoop rfl (.timesStep
    (.andThen (.read rfl hx) (.andThen (.ifThenSkip rfl) (.andThen (.assign rfl) .done)))
    (.timesLeave (.andThen (.read rfl hx) (.leave (.ifThen rfl (by decide)
      (.andThen (.write rfl) (.leave .ret)))))))), rfl, rfl⟩

theorem tally_stored : tallyLinked.Stored tallyImage (tally.linked {}).context.symbols := by
  intro id hid symbol hsymbol _ hglobal
  have hdata : ∀ id ∈ tallyLinked.body.uses,
      ((tally.linked {}).context.symbols.symbol? id).any Symbol.isGlobal →
        .label (globalLabel id.name) (some ⟨.space wordSize, none⟩) ∈ tallyImage.lines := by
    decide +kernel
  exact ⟨none, hdata id hid (by simpa [hsymbol] using hglobal)⟩

theorem tally_active :
    tallyLinked.Active tallyImage (tally.linked {}).context.symbols 0x7ffe0000 tallyStart where
  sp_aligned := by decide
  fp_aligned := by decide
  frame decl hdecl symbol hsymbol := by
    obtain rfl := List.mem_singleton.mp hdecl
    cases hsymbol
    decide
  data {name comment} hmem := by
    have hlt := Image.lineOf_lt hmem
    have hlength : tallyImage.lines.length < 2 ^ 20 := by decide +kernel
    refine .inl ?_
    simp only [tallyImage, Image.load, BitVec.toNat_ofNat, Image.dataBase] at hlt hlength ⊢
    omega

/-- The return from inside the loop is followed to the exit, and the sum is kept. -/
theorem lower_tally_follows : ∃ t, tallyImage.Steps tallyStart t ∧
    t.events = [.read 5, .read 0, .text "zero"] ∧ tallyImage.target "main_Exit" = some t.pc ∧
    t.mem (tallyImage.dataAddress "_total") = 5 := by
  have hanalyze : tally.analyze {} = .done (tally.linked {}) [] :=
    analyze_of_check sound_empty (by decide) (by decide) rfl
  have hfn : tallyLinked ∈ (tally.linked {}).program.functions := .head _
  have hblock : tallyLinked.body ∈ tallyLinked.body.blocks := .head _
  obtain ⟨g', code, hlower, hlines, hfollows⟩ :=
    lower_block_follows (g := tallyGenerator) hanalyze hfn hblock (by decide) rfl
  have hcode : tallyCode = code := by
    rw [tallyCode, hlower]
    exact hlines
  have hat : tallyImage.At tallyStart.pc code := by
    have hlines : tallyImage.At 0 tallyLines := List.prefix_refl _
    rw [tallyLines, Image.at_append, Image.at_append, hcode] at hlines
    exact hlines.2.1
  have hhosted : tallyGenerator.Hosted tallyLinked tallyImage :=
    ⟨Option.isSome_iff_exists.mp (by decide +kernel), (fun _ _ h => by cases h), tally_stored⟩
  obtain ⟨events, after, hruns, rfl, htotal⟩ := tally_runs
  obtain ⟨t, ht⟩ := hfollows tallyImage 0x7ffe0000 tallyStart hhosted hat tally_active
    (by decide +kernel) _ _ _ _ ⟨fun _ _ _ => rfl, fun _ _ _ _ _ _ => .inl rfl, rfl⟩ hruns
  refine ⟨t, ht.steps, ht.events, (ht.returned none rfl).1, ?_⟩
  have hplace : tallyLinked.Place tallyImage (tally.linked {}).context.symbols (t.reg .fp) 0
      (tallyImage.dataAddress "_total") :=
    ⟨⟨"total", ⟨12, 9⟩, some 0⟩, by decide, rfl, ⟨"total", .int, 1, .scalar, ⟨1, 5⟩⟩, rfl,
      ⟨rfl, rfl⟩, rfl⟩
  rw [ht.agrees.values 0 _ hplace, htotal]

end Program

end StackMips
