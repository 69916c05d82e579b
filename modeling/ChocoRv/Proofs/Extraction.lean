import ChocoRv.TestCase
import Mathlib.Data.List.Forall2
import Mathlib.Tactic.SplitIfs

/-!
# What a document's test cases hold

A document is cut at the headings of tests. The case of such a heading is determined by the fences
up to the next one: `Extends` says what a list of blocks adds to a case that is still open, and
`Gives` what the finished case of a heading is. Inputs are kept apart from each other, lines of
assembly add up, and of several lists of messages the last one stays.
-/

namespace ChocoRv.TestCase

open Markdown (Block)

/-- The name in the heading of a test. -/
def testName? : Block → Option Bytes
  | .heading _ text => name? text
  | .fence .. => none

/-- The blocks up to the next test. -/
def untilTest (blocks : List Block) : List Block := blocks.takeWhile fun b => (testName? b).isNone

/-- The heading of a test with the blocks up to the next one. -/
structure Section where
  name : Bytes
  line : Nat
  body : List Block

def sections : List Block → List Section
  | [] => []
  | .heading line text :: rest =>
    match name? text with
    | some name => ⟨name, line, untilTest rest⟩ :: sections rest
    | none => sections rest
  | .fence .. :: rest => sections rest

def inputLanguage : Bytes := txt "chocopy"
def errorsLanguage : Bytes := txt "errors"
def asmLanguage : Bytes := txt "asm"

/-- The languages of the fences. -/
def languages : List Block → List Bytes
  | [] => []
  | .heading .. :: rest => languages rest
  | .fence _ language _ :: rest => language :: languages rest

/-- The contents of the fences of a language. -/
def contents (language : Bytes) : List Block → List Bytes
  | [] => []
  | .heading .. :: rest => contents language rest
  | .fence _ l content :: rest =>
    if l = language then content :: contents language rest else contents language rest

/-- The last of the texts, and the only one with something in it. -/
def OnlyInput (inputs : List Bytes) (input : Bytes) : Prop :=
  ∃ k, inputs = List.replicate k [] ++ [input]

/-- The blocks add to the open case `c` what `c'` has besides. -/
structure Extends (c : TestCase) (body : List Block) (c' : TestCase) : Prop where
  name : c'.name = c.name
  line : c'.line = c.line
  languages : ∀ l ∈ languages body, l = inputLanguage ∨ l = errorsLanguage ∨ l = asmLanguage
  input : OnlyInput (c.input :: contents inputLanguage body) c'.input
  hasErrors : c'.hasErrors = (c.hasErrors || !(contents errorsLanguage body).isEmpty)
  errors : c'.errors = ((contents errorsLanguage body).getLast?.map nonEmptyLines).getD c.errors
  asm : c'.asm = c.asm ++ (contents asmLanguage body).flatMap nonEmptyLines

/-- The case of a test: its input is that of the only fence with one, its messages are those of the
last list of messages, and it has all lines of assembly. -/
structure Section.Gives (s : Section) (c : TestCase) : Prop where
  name : c.name = s.name
  line : c.line = s.line
  languages : ∀ l ∈ TestCase.languages s.body,
    l = inputLanguage ∨ l = errorsLanguage ∨ l = asmLanguage
  input : OnlyInput (contents inputLanguage s.body) c.input
  notBlank : c.input.trim ≠ []
  hasErrors : c.hasErrors = true ↔ contents errorsLanguage s.body ≠ []
  errors : c.errors = ((contents errorsLanguage s.body).getLast?.map nonEmptyLines).getD []
  asm : c.asm = (contents asmLanguage s.body).flatMap nonEmptyLines
  asserts : c.hasErrors = true ∨ c.asm ≠ []

theorem onlyInput_singleton {x input : Bytes} : OnlyInput [x] input ↔ x = input := by
  constructor
  · rintro ⟨_ | k, hk⟩
    · simpa using hk
    · simp [List.replicate_succ] at hk
  · rintro rfl
    exact ⟨0, rfl⟩

theorem onlyInput_cons {x y input : Bytes} {inputs : List Bytes} :
    OnlyInput (x :: y :: inputs) input ↔ x = [] ∧ OnlyInput (y :: inputs) input := by
  constructor
  · rintro ⟨_ | k, hk⟩
    · simp at hk
    · obtain ⟨hx, hrest⟩ := List.cons.inj hk
      exact ⟨hx, k, hrest⟩
  · rintro ⟨rfl, k, hk⟩
    exact ⟨k + 1, by rw [hk]; rfl⟩

/-- Adds the fences among the blocks to a case. -/
def addAll (c : TestCase) : List Block → Except Problem TestCase
  | [] => .ok c
  | .heading .. :: rest => c.addAll rest
  | .fence line language content :: rest => do (← c.addFence line language content).addAll rest

variable {c c' : TestCase} {blocks body : List Block} {line : Nat} {language content : Bytes}

theorem addAll_fence_iff :
    c.addAll (.fence line language content :: body) = .ok c' ↔
      ∃ c₁, c.addFence line language content = .ok c₁ ∧ c₁.addAll body = .ok c' := by
  rw [addAll]
  cases c.addFence line language content with
  | error p => exact ⟨nofun, by rintro ⟨_, ⟨⟩, _⟩⟩
  | ok c₁ => exact ⟨fun h => ⟨c₁, rfl, h⟩, by rintro ⟨_, ⟨⟩, h⟩; exact h⟩

theorem extends_nil : c.Extends [] c' ↔ c = c' := by
  constructor
  · rintro ⟨hname, hline, -, hinput, herr, herrors, hasm⟩
    have hinput := onlyInput_singleton.1 hinput
    cases c
    cases c'
    simp_all [contents]
  · rintro rfl
    exact ⟨rfl, rfl, nofun, onlyInput_singleton.2 rfl, by simp [contents], rfl, by simp [contents]⟩

/-- What a fence does to a case. -/
theorem addFence_iff {c₁ : TestCase} : c.addFence line language content = .ok c₁ ↔
    (language = inputLanguage ∧ c.input = [] ∧ c₁ = { c with input := content }) ∨
    (language = errorsLanguage ∧
      c₁ = { c with hasErrors := true, errors := nonEmptyLines content }) ∨
    (language = asmLanguage ∧ c₁ = { c with asm := c.asm ++ nonEmptyLines content }) := by
  have hne : inputLanguage ≠ errorsLanguage ∧ inputLanguage ≠ asmLanguage ∧
    errorsLanguage ≠ asmLanguage := by decide
  simp only [addFence, show txt "chocopy" = inputLanguage from rfl,
    show txt "errors" = errorsLanguage from rfl, show txt "asm" = asmLanguage from rfl]
  split_ifs with hinput hempty herrors hasm
  · simp [hinput, hne, List.isEmpty_iff.1 hempty, eq_comm]
  · simp [hinput, hne, mt List.isEmpty_iff.2 hempty]
  · simp [herrors, hne.1.symm, hne.2.2, eq_comm]
  · simp [hasm, hne.2.1.symm, hne.2.2.symm, eq_comm]
  · simp [hinput, herrors, hasm]

/-- What one fence adds and what the others add to that. -/
theorem extends_fence : c.Extends (.fence line language content :: body) c' ↔
    ∃ c₁, c.addFence line language content = .ok c₁ ∧ c₁.Extends body c' := by
  have hne : inputLanguage ≠ errorsLanguage ∧ inputLanguage ≠ asmLanguage ∧
    errorsLanguage ≠ asmLanguage := by decide
  constructor
  · intro h
    obtain ⟨hlanguage, hrest⟩ := List.forall_mem_cons.1 h.languages
    rcases hlanguage with rfl | rfl | rfl
    · have hinputs := h.input
      rw [contents, if_pos rfl, onlyInput_cons] at hinputs
      exact ⟨_, addFence_iff.2 (.inl ⟨rfl, hinputs.1, rfl⟩), h.name, h.line, hrest, hinputs.2,
        h.hasErrors, h.errors, h.asm⟩
    · refine ⟨_, addFence_iff.2 (.inr (.inl ⟨rfl, rfl⟩)), h.name, h.line, hrest, h.input, ?_, ?_,
        h.asm⟩
      · simpa [contents] using h.hasErrors
      · simpa [contents, List.getLast?_cons] using h.errors
    · refine ⟨_, addFence_iff.2 (.inr (.inr ⟨rfl, rfl⟩)), h.name, h.line, hrest, h.input,
        h.hasErrors, h.errors, ?_⟩
      simpa [contents] using h.asm
  · rintro ⟨c₁, hadd, h⟩
    rcases addFence_iff.1 hadd with ⟨rfl, hempty, rfl⟩ | ⟨rfl, rfl⟩ | ⟨rfl, rfl⟩
    · refine ⟨h.name, h.line, List.forall_mem_cons.2 ⟨.inl rfl, h.languages⟩, ?_, h.hasErrors,
        h.errors, h.asm⟩
      rw [contents, if_pos rfl, onlyInput_cons]
      exact ⟨hempty, h.input⟩
    · refine ⟨h.name, h.line, List.forall_mem_cons.2 ⟨.inr (.inl rfl), h.languages⟩, h.input, ?_, ?_,
        h.asm⟩
      · simpa [contents] using h.hasErrors
      · simpa [contents, List.getLast?_cons] using h.errors
    · refine ⟨h.name, h.line, List.forall_mem_cons.2 ⟨.inr (.inr rfl), h.languages⟩, h.input,
        h.hasErrors, h.errors, ?_⟩
      simpa [contents] using h.asm

theorem addAll_iff : c.addAll body = .ok c' ↔ c.Extends body c' := by
  induction body generalizing c with
  | nil => exact (by rw [addAll, Except.ok.injEq] : _ ↔ c = c').trans extends_nil.symm
  | cons b body ih =>
    cases b with
    | heading =>
      exact (ih (c := c)).trans ⟨fun h => ⟨h.1, h.2, h.3, h.4, h.5, h.6, h.7⟩,
        fun h => ⟨h.1, h.2, h.3, h.4, h.5, h.6, h.7⟩⟩
    | fence => simp only [addAll_fence_iff, extends_fence, ih]

/-! ### Whole documents -/

theorem validate_iff : c.validate = .ok () ↔
    c.input.trim ≠ [] ∧ (c.hasErrors = true ∨ c.asm ≠ []) := by
  unfold validate
  split_ifs with hblank hbare
  · simp [List.isEmpty_iff.1 hblank]
  · simp only [Bool.and_eq_true, Bool.not_eq_true', List.isEmpty_iff] at hbare
    simp [hbare]
  · simp only [Bool.and_eq_true, Bool.not_eq_true', List.isEmpty_iff, not_and] at hbare hblank
    cases h : c.hasErrors <;> simp_all

/-- A case is that of a test if it passes after all blocks of the test. -/
theorem gives_iff {s : Section} : s.Gives c ↔
    addAll ⟨s.name, s.line, [], [], false, []⟩ s.body = .ok c ∧ c.validate = .ok () := by
  rw [addAll_iff, validate_iff]
  constructor
  · rintro ⟨hname, hline, hlanguages, ⟨k, hk⟩, hblank, herr, herrors, hasm, hassert⟩
    refine ⟨⟨hname, hline, hlanguages, ⟨k + 1, by rw [hk]; rfl⟩, ?_, herrors, hasm⟩, hblank,
      hassert⟩
    rw [Bool.false_or, Bool.eq_iff_iff, herr]
    simp
  · rintro ⟨⟨hname, hline, hlanguages, hinput, herr, herrors, hasm⟩, hblank, hassert⟩
    refine ⟨hname, hline, hlanguages, ?_, hblank, by simp [herr], herrors, hasm, hassert⟩
    cases hcontents : contents inputLanguage s.body with
    | nil =>
      rw [hcontents, onlyInput_singleton] at hinput
      exact absurd (by rw [← hinput]; rfl) hblank
    | cons x inputs =>
      rw [hcontents] at hinput
      exact (onlyInput_cons.1 hinput).2

theorem bind_ok_iff {ε α β : Type} {x : Except ε α} {f : α → Except ε β} {b : β} :
    x >>= f = .ok b ↔ ∃ a, x = .ok a ∧ f a = .ok b := by
  cases x with
  | error e => exact ⟨nofun, by rintro ⟨_, ⟨⟩, _⟩⟩
  | ok a => exact ⟨fun h => ⟨a, rfl, h⟩, by rintro ⟨_, ⟨⟩, h⟩; exact h⟩

theorem mapError_ok_iff {ε ε' α : Type} {x : Except ε α} {e : ε → ε'} {a : α} :
    x.mapError e = .ok a ↔ x = .ok a := by
  cases x with
  | error => exact ⟨nofun, nofun⟩
  | ok b =>
    show Except.ok b = _ ↔ _
    rw [Except.ok.injEq, Except.ok.injEq]

theorem untilTest_named {text name : Bytes} (h : name? text = some name) :
    untilTest (.heading line text :: blocks) = [] :=
  List.takeWhile_cons_of_neg (by simp [testName?, h])

theorem untilTest_plain {text : Bytes} (h : name? text = none) :
    untilTest (.heading line text :: blocks) = .heading line text :: untilTest blocks :=
  List.takeWhile_cons_of_pos (by simp [testName?, h])

theorem untilTest_fence : untilTest (.fence line language content :: blocks) =
    .fence line language content :: untilTest blocks :=
  List.takeWhile_cons_of_pos rfl

/-- The cases of the blocks after an open case. -/
theorem collect_some_iff {cases : List TestCase} : collect (some c) blocks = .ok cases ↔
    ∃ c' rest, c.addAll (untilTest blocks) = .ok c' ∧ c'.validate = .ok () ∧ cases = c' :: rest ∧
      List.Forall₂ Section.Gives (sections blocks) rest := by
  induction blocks generalizing c cases with
  | nil =>
    rw [collect, bind_ok_iff]
    simp only [mapError_ok_iff]
    constructor
    · rintro ⟨_, hvalid, hcases⟩
      exact ⟨c, [], rfl, hvalid, (Except.ok.inj hcases).symm, .nil⟩
    · rintro ⟨_, _, ⟨⟩, hvalid, rfl, ⟨⟩⟩
      exact ⟨(), hvalid, rfl⟩
  | cons b blocks ih =>
    cases b with
    | heading line text =>
      cases hname : name? text with
      | none =>
        rw [collect, hname, untilTest_plain hname, sections, hname]
        exact ih
      | some name =>
        -- the open case is complete, and another one is open
        rw [collect, hname, untilTest_named hname, sections, hname]
        simp only [bind_ok_iff, mapError_ok_iff, ih, List.forall₂_cons_left_iff, gives_iff]
        constructor
        · rintro ⟨_, hvalid, _, ⟨c', rest, hadd, hvalid', rfl, hrest⟩, hcases⟩
          exact ⟨c, _, rfl, hvalid, (Except.ok.inj hcases).symm, c', rest, ⟨hadd, hvalid'⟩, hrest,
            rfl⟩
        · rintro ⟨_, _, ⟨⟩, hvalid, rfl, c', rest, ⟨hadd, hvalid'⟩, hrest, rfl⟩
          exact ⟨(), hvalid, _, ⟨c', rest, hadd, hvalid', rfl, hrest⟩, rfl⟩
    | fence line language content =>
      rw [collect, bind_ok_iff, untilTest_fence, sections]
      simp only [mapError_ok_iff, ih, addAll_fence_iff]
      constructor
      · rintro ⟨c₁, hfence, c', rest, hadd, h⟩
        exact ⟨c', rest, ⟨c₁, hfence, hadd⟩, h⟩
      · rintro ⟨c', rest, ⟨c₁, hfence, hadd⟩, h⟩
        exact ⟨c₁, hfence, c', rest, hadd, h⟩

/-- The cases of a document. -/
theorem collect_none_iff {cases : List TestCase} : collect none blocks = .ok cases ↔
    (∀ l ∈ languages (untilTest blocks), l = []) ∧
      List.Forall₂ Section.Gives (sections blocks) cases := by
  induction blocks with
  | nil =>
    simp [collect, untilTest, languages, sections, eq_comm]
  | cons b blocks ih =>
    cases b with
    | heading line text =>
      cases hname : name? text with
      | none =>
        rw [collect, hname, untilTest_plain hname, sections, hname]
        exact ih
      | some name =>
        rw [collect, hname, untilTest_named hname, sections, hname]
        simp only [collect_some_iff, List.forall₂_cons_left_iff, gives_iff]
        constructor
        · rintro ⟨c, rest, hadd, hvalid, rfl, hrest⟩
          exact ⟨nofun, c, rest, ⟨hadd, hvalid⟩, hrest, rfl⟩
        · rintro ⟨-, c, rest, ⟨hadd, hvalid⟩, hrest, rfl⟩
          exact ⟨c, rest, hadd, hvalid, rfl, hrest⟩
    | fence line language content =>
      rw [collect, untilTest_fence, sections, languages, List.forall_mem_cons]
      cases language with
      | nil => exact ih.trans (by simp)
      | cons a language => simp

theorem sections_names (blocks : List Block) :
    (sections blocks).map Section.name = blocks.filterMap testName? := by
  induction blocks with
  | nil => rfl
  | cons b blocks ih =>
    cases b with
    | heading line text => cases h : name? text <;> simp [sections, testName?, h, ih]
    | fence => exact ih

/-- One list of messages is kept as a whole, and one input is the only one. -/
theorem Section.Gives.lossless {s : Section} (h : s.Gives c) :
    ((contents errorsLanguage s.body).length ≤ 1 →
      c.errors = (contents errorsLanguage s.body).flatMap nonEmptyLines) ∧
    ([] ∉ contents inputLanguage s.body → contents inputLanguage s.body = [c.input]) := by
  refine ⟨fun hone => ?_, fun hempty => ?_⟩
  · rw [h.errors]
    match contents errorsLanguage s.body, hone with
    | [], _ => rfl
    | [content], _ => simp
  · obtain ⟨_ | k, hk⟩ := h.input
    · exact hk
    · exact absurd (by simp [hk, List.replicate_succ]) hempty

/-- The cases that a document gives: one for each heading of a test, in order. The document passes
exactly if only fences without a language stand before the first test and each test gives a case:
it has an input, all fences up to the next test have a known language, and it has assertions. Lines
of assembly add up. Of several lists of messages the last one stays, so a test with one list keeps
all its messages, and a test without empty inputs has one input. -/
theorem extraction_keeps (blocks : List Block) (cases : List TestCase) :
    (collect none blocks = .ok cases ↔ (∀ l ∈ languages (untilTest blocks), l = []) ∧
      List.Forall₂ Section.Gives (sections blocks) cases) ∧
    (sections blocks).map Section.name = blocks.filterMap testName? ∧
    ∀ s c, Section.Gives s c →
      ((contents errorsLanguage s.body).length ≤ 1 →
        c.errors = (contents errorsLanguage s.body).flatMap nonEmptyLines) ∧
      ([] ∉ contents inputLanguage s.body → contents inputLanguage s.body = [c.input]) :=
  ⟨collect_none_iff, sections_names blocks, fun _ _ h => h.lossless⟩

/-- A test of errors and, after another heading, a test of assembly in two fences. -/
def twoTests : List Block :=
  [.heading 1 (txt "Test: first"), .fence 4 (txt "chocopy") (txt "pass\n"),
   .fence 0 (txt "errors") [], .heading 9 (txt "Notes"), .heading 11 (txt "Test: second"),
   .fence 14 (txt "asm") (txt "  li a0, 1\n\n"), .fence 19 (txt "chocopy") (txt "print(1)\n"),
   .fence 23 (txt "asm") (txt "jal $print\n")]

theorem twoTests_kept : ∃ c c', List.Forall₂ Section.Gives (sections twoTests) [c, c'] ∧
    c.input = txt "pass\n" ∧ c.hasErrors = true ∧ c'.asm = [txt "li a0, 1", txt "jal $print"] := by
  refine ⟨_, _, ((extraction_keeps twoTests [⟨txt "first", 1, txt "pass\n", [], true, []⟩,
    ⟨txt "second", 11, txt "print(1)\n", [], false, [txt "li a0, 1", txt "jal $print"]⟩]).1.1 ?_).2,
    rfl, rfl, rfl⟩
  decide +kernel

/-- A second list of messages takes the place of the first, and an empty input may stand before the
input. -/
theorem secondList_replaces :
    (∃ c, collect none [.heading 1 (txt "Test: a"), .fence 4 (txt "chocopy") (txt "pass\n"),
        .fence 8 (txt "errors") (txt "one\n"), .fence 12 (txt "errors") (txt "two\n")] = .ok [c] ∧
      c.errors = [txt "two"] ∧
      ([txt "one\n", txt "two\n"].flatMap nonEmptyLines) = [txt "one", txt "two"]) ∧
    ∃ c, collect none [.heading 1 (txt "Test: a"), .fence 0 (txt "chocopy") [],
        .fence 7 (txt "chocopy") (txt "pass\n"), .fence 0 (txt "errors") []] = .ok [c] :=
  ⟨⟨_, rfl, by decide +kernel, by decide +kernel⟩, _, rfl⟩

end ChocoRv.TestCase
