import Mathlib.Logic.Equiv.Basic
import StackMips.Proofs.Exchange.Lowering
import StackMips.Proofs.Exchange.Resolution
import StackMips.Proofs.Exchange.Typing

/-!
# Renaming

Names of locals, formals, structs and fields do not matter.  A program whose names are exchanged for
others, different names for different ones, compiles to the same as before, as long as the names
that labels are made of stay.
-/

namespace StackMips

open Mips

def Ident.rename (f : String → String) (id : Ident) : Ident := { id with name := f id.name }

/-- The name that the label of a declaration is made of.  A struct has no label. -/
def Decl.labelName? : Decl → Option String
  | .var decl => some decl.id.name
  | .fn decl => some decl.id.name
  | .struct _ => none

theorem Decl.filterMap_labelName?_linkedAll (r : Resolver) (decls : List Decl) :
    (linkedAll r decls).filterMap labelName? = decls.filterMap labelName? := by
  induction decls generalizing r with
  | nil => rfl
  | cons decl decls ih =>
      have hdecl : (decl.linked r).labelName? = decl.labelName? := by cases decl <;> rfl
      rw [linkedAll, List.filterMap_cons, List.filterMap_cons, hdecl, ih]

namespace Program

def rename (f : String → String) (program : Program) : Program := program.mapIdents (Ident.rename f)

/-- The names that labels are made of: those of top-level variables and functions. -/
def labelNames (program : Program) : List String := program.decls.filterMap Decl.labelName?

theorem labelNames_linked (program : Program) (context : Context) :
    (program.linked context).program.labelNames = program.labelNames :=
  Decl.filterMap_labelName?_linkedAll _ _

end Program

/-! ## Analysis -/

def Exchange.ofRename {f : String → String} (hf : Function.Injective f) : Exchange where
  name := f
  link := id
  admits _ := True
  name_injective := hf
  link_strictMono := strictMono_id

section

variable {f : String → String} (hf : Function.Injective f)

theorem Exchange.ident_ofRename : (ofRename hf).ident = Ident.rename f := by
  funext id
  simp [ident, Ident.rename, ofRename]

theorem Resolver.corresponds_start (options : Options) :
    (Resolver.start { options }).Corresponds (.ofRename hf) (Resolver.start { options }) where
  symbols :=
    ⟨rfl, fun _ _ => rfl, fun i symbol hget => by simp [Resolver.start, Arena.get?] at hget⟩
  table := SymbolTable.corresponds_empty
  frameOffset := rfl
  localWords := rfl

namespace Program

variable (program : Program) (options : Options)

theorem mapIdents_ofRename :
    program.mapIdents (Exchange.ofRename hf).ident = program.rename f := by
  rw [Exchange.ident_ofRename, rename]

theorem commutes_rename : Decl.pass.all.Commutes (Resolver.Corresponds (.ofRename hf))
    (List.map (Decl.mapIdents (Ident.rename f))) program.decls := by
  rw [← Exchange.ident_ofRename hf]
  exact Program.commutes fun _ _ => trivial

theorem after_rename : (program.after { options }).Corresponds (.ofRename hf)
    ((program.rename f).after { options }) :=
  (program.commutes_rename hf).after _ _ (Resolver.corresponds_start hf options)

theorem symbols_rename : (program.linked { options }).context.symbols.Corresponds (.ofRename hf)
    ((program.rename f).linked { options }).context.symbols :=
  (program.after_rename hf options).symbols

include hf in
theorem linked_rename : ((program.rename f).linked { options }).program =
    (program.linked { options }).program.rename f := by
  have hlinked := (program.commutes_rename hf).linked _ _ (Resolver.corresponds_start hf options)
  rw [linked, linked, rename, mapIdents, rename, mapIdents, (Decl.all_eq_pass _ _).1,
    (Decl.all_eq_pass _ _).1]
  exact congrArg Program.mk hlinked

include hf in
theorem resolutionReports_rename (hentry : f options.entryPoint = options.entryPoint) :
    (program.rename f).resolutionReports { options } = program.resolutionReports { options } := by
  have hreports := (program.commutes_rename hf).reports _ _ (Resolver.corresponds_start hf options)
  have hfunction : ((program.rename f).after { options }).hasFunction (f options.entryPoint) =
      (program.after { options }).hasFunction options.entryPoint :=
    (program.after_rename hf options).hasFunction trivial
  rw [hentry] at hfunction
  rw [resolutionReports, resolutionReports, (Decl.all_eq_pass _ _).2, (Decl.all_eq_pass _ _).2,
    Resolver.entryReports, Resolver.entryReports, hfunction]
  exact congrArg (· ++ _) hreports

variable {program} (hunlinked : program.Unlinked) (hgrammar : program.InGrammar)
include hunlinked hgrammar hf

theorem analyze_rename (hentry : f options.entryPoint = options.entryPoint) :
    ∃ reports, program.analyze { options } = .done (program.linked { options }) reports ∧
      (program.rename f).analyze { options } =
        .done ((program.rename f).linked { options }) reports := by
  have hunlinked' : (program.rename f).Unlinked := by
    intro id hid
    rw [rename, idents_mapIdents] at hid
    obtain ⟨other, hother, rfl⟩ := List.mem_map.mp hid
    exact hunlinked other hother
  obtain ⟨typing, hcheck, hanalyze⟩ :=
    @analyze_eq program { options } sound_empty hgrammar hunlinked
  obtain ⟨typing', hcheck', hanalyze'⟩ :=
    @analyze_eq (program.rename f) { options } sound_empty hgrammar.mapIdents hunlinked'
  have hsame : typing' = typing := by
    have halike := alike_check (program.symbols_rename hf options)
      (program.linked { options }).program
    rw [mapIdents_ofRename, ← linked_rename hf, hcheck, hcheck'] at halike
    cases halike
    rfl
  refine ⟨_, hanalyze, ?_⟩
  rw [hanalyze', hsame, resolutionReports_rename hf program options hentry]

omit hunlinked hgrammar in
theorem finished_rename
    (hanalyze : program.analyze { options } = .done (program.linked { options }) [])
    (hfixed : ∀ name ∈ program.labelNames, f name = name) :
    (Pairing.exchanged (.ofRename hf) (program.linked { options }).context
        ((program.rename f).linked { options }).context rfl).Finished
      (Generator.finish { context := (program.linked { options }).context }
        (program.linked { options }).program)
      (Generator.finish { context := ((program.rename f).linked { options }).context }
        ((program.rename f).linked { options }).program) := by
  have hlabel : ∀ decl ∈ (program.linked { options }).program.decls, ∀ name,
      decl.labelName? = some name → f name = name := by
    intro decl hdecl name hname
    apply hfixed
    rw [← labelNames_linked program { options }]
    exact List.mem_filterMap.mpr ⟨decl, hdecl, hname⟩
  have hoptions : ((program.rename f).linked { options }).context.options =
      (program.linked { options }).context.options := rfl
  have hmatches := matchesDecl_exchanged (x := .ofRename hf) hoptions hanalyze
    (program.symbols_rename hf options) (fun decl hdecl => hlabel _ hdecl _ rfl)
    (fun fn hfn => hlabel _ (mem_functions.mp hfn) _ rfl)
  rw [linked_rename hf, ← mapIdents_ofRename hf (program.linked { options }).program]
  exact Pairing.finished hmatches rfl rfl rfl

/-- Both programs compile to the same, or compilation stops at a fault for both. -/
theorem compile_rename_cases (hentry : f options.entryPoint = options.entryPoint)
    (hfixed : ∀ name ∈ program.labelNames, f name = name) :
    (∃ linked outcome, program.compile options = .ok (linked, outcome) ∧
      (program.rename f).compile options = .ok (linked.rename f, outcome)) ∨
    ∃ fault fault', program.compile options = .error fault ∧
      (program.rename f).compile options = .error fault' := by
  obtain ⟨reports, hanalyze, hanalyze'⟩ := analyze_rename hf options hunlinked hgrammar hentry
  refine (compile_cases_of_finish hanalyze hanalyze' fun hquiet => ?_).imp_left ?_
  · subst hquiet
    exact (finished_rename hf options hanalyze hfixed).of_exchanged
  · rintro ⟨outcome, hleft, hright⟩
    exact ⟨_, outcome, hleft, linked_rename hf program options ▸ hright⟩

end Program

end

namespace Program

/-- Names of locals, formals, structs and fields do not matter.  If different names stay different
and the entry point and the names of top-level variables and functions stay as they are, then the
program with other names has the same outcome: the same reports, the same construct without code or
the same assembly.  Its linked tree is the linked tree with other names. -/
theorem compile_rename {program : Program} {f : String → String} (options : Options)
    (hunlinked : program.Unlinked) (hgrammar : program.InGrammar) (hf : Function.Injective f)
    (hentry : f options.entryPoint = options.entryPoint)
    (hfixed : ∀ name ∈ program.labelNames, f name = name) :
    (∀ linked outcome, program.compile options = .ok (linked, outcome) →
      (program.rename f).compile options = .ok (linked.rename f, outcome)) ∧
    (∀ fault, program.compile options = .error fault →
      ∃ fault', (program.rename f).compile options = .error fault') ∧
    ((∀ fn ∈ program.functions, fn.declCount < 2 ^ 28) →
      ∃ result, program.compile options = .ok result) := by
  have hboth := compile_rename_cases hf options hunlinked hgrammar hentry hfixed
  refine ⟨?_, ?_, compile_isOk options hunlinked hgrammar⟩
  · intro linked outcome hcompile
    rcases hboth with ⟨linked', outcome', hleft, hright⟩ | ⟨fault, fault', hleft, -⟩
    · cases hleft.symm.trans hcompile
      exact hright
    · cases hleft.symm.trans hcompile
  · intro fault hcompile
    rcases hboth with ⟨linked', outcome', hleft, -⟩ | ⟨other, fault', -, hright⟩
    · cases hleft.symm.trans hcompile
    · exact ⟨fault', hright⟩

def adder : Program where
  decls := [
    .struct ⟨⟨"Pair", ⟨1, 8⟩, none⟩, [⟨.int, ⟨"first", ⟨1, 19⟩, none⟩⟩]⟩,
    .var ⟨.struct ⟨"Pair", ⟨2, 8⟩, none⟩, ⟨"origin", ⟨2, 13⟩, none⟩⟩,
    .var ⟨.int, ⟨"total", ⟨3, 5⟩, none⟩⟩,
    .fn ⟨.void, ⟨"main", ⟨4, 6⟩, none⟩, [⟨.int, ⟨"step", ⟨4, 15⟩, none⟩⟩], ⟨[
      ⟨.int, ⟨"sum", ⟨5, 7⟩, none⟩⟩], [
      .assign (.name ⟨"sum", ⟨6, 3⟩, none⟩)
        (.binary .add (.name ⟨"total", ⟨6, 9⟩, none⟩) (.name ⟨"step", ⟨6, 17⟩, none⟩)),
      .write (.name ⟨"sum", ⟨7, 9⟩, none⟩)]⟩⟩]

/-- The struct gets another name, and the formal and the local exchange theirs. -/
def adderNames : Equiv.Perm String :=
  (Equiv.swap "Pair" "Point").trans (Equiv.swap "step" "sum")

def renamedAdder : Program where
  decls := [
    .struct ⟨⟨"Point", ⟨1, 8⟩, none⟩, [⟨.int, ⟨"first", ⟨1, 19⟩, none⟩⟩]⟩,
    .var ⟨.struct ⟨"Point", ⟨2, 8⟩, none⟩, ⟨"origin", ⟨2, 13⟩, none⟩⟩,
    .var ⟨.int, ⟨"total", ⟨3, 5⟩, none⟩⟩,
    .fn ⟨.void, ⟨"main", ⟨4, 6⟩, none⟩, [⟨.int, ⟨"sum", ⟨4, 15⟩, none⟩⟩], ⟨[
      ⟨.int, ⟨"step", ⟨5, 7⟩, none⟩⟩], [
      .assign (.name ⟨"step", ⟨6, 3⟩, none⟩)
        (.binary .add (.name ⟨"total", ⟨6, 9⟩, none⟩) (.name ⟨"sum", ⟨6, 17⟩, none⟩)),
      .write (.name ⟨"step", ⟨7, 9⟩, none⟩)]⟩⟩]

/-- Both programs compile to the same assembly. -/
theorem adder_renamed : ∃ linked assembly,
    adder.compile {} = .ok (linked, .ok assembly) ∧
    renamedAdder.compile {} = .ok (linked.rename adderNames, .ok assembly) := by
  have hcompile : adder.compile {} = .ok ((adder.linked {}).program, .ok (adder.code {})) :=
    compile_of_check (by decide) (by decide) (by decide) rfl rfl rfl
  have hrename : adder.rename adderNames = renamedAdder := rfl
  obtain ⟨hsame, -⟩ := @compile_rename adder adderNames {} (by decide) (by decide)
    adderNames.injective (by decide) (by decide)
  refine ⟨_, _, hcompile, ?_⟩
  rw [← hrename]
  exact hsame _ _ hcompile

end Program

end StackMips
