import ChocoRv.Analysis.Basic
import ChocoRv.Proofs.Declared
import ChocoRv.Proofs.Typed

/-!
# Accepted programs

A text is accepted if it parses and analysis reports nothing. The passes after analysis see the
program with its types and its global scope; `Accepts.accepted` collects what holds of them.
-/

namespace ChocoRv

open Typing

/-- The text parses to a program that analysis accepts; `p` is the program with its types. -/
def Accepts (source : Bytes) (globals : Scope) (p : Program) : Prop :=
  ∃ parsed, parse source = .ok parsed ∧ parsed.analyze = .ok ⟨globals, [], some p⟩

/-- The scope and the typed program of an accepted text. -/
def accepted? (source : Bytes) : Option (Scope × Program) :=
  match parse source with
  | .ok parsed =>
    match parsed.analyze with
    | .ok ⟨globals, [], some p⟩ => some (globals, p)
    | _ => none
  | .error _ => none

theorem accepts_of_accepted? {source : Bytes} {globals : Scope} {p : Program}
    (h : accepted? source = some (globals, p)) : Accepts source globals p := by
  unfold accepted? at h
  split at h
  · rename_i parsed hparse
    split at h
    · rename_i hanalyze
      cases h
      exact ⟨parsed, hparse, hanalyze⟩
    · cases h
  · cases h

/-- A test of a result that is there. -/
theorem ok_of_any {ε α : Type} {x : Except ε α} {test : α → Bool}
    (h : x.toOption.any test = true) : ∃ a, x = .ok a ∧ test a = true := by
  cases x with
  | ok a => exact ⟨a, rfl, h⟩
  | error e => cases h

/-- What the type checker knows of a program whose declarations are in order. -/
structure Program.Resolved (globals : Scope) (p : Program) : Prop where
  valid : p.Valid
  declared : p.Declared globals

/-- What the later passes know of an accepted program. -/
structure Program.Accepted (globals : Scope) (p : Program) : Prop extends p.Resolved globals where
  typed : p.Typed globals

theorem Program.resolved {p : Program} {globals : Scope} (hvalid : p.Valid)
    (h : p.declare = ⟨globals, []⟩) : p.Resolved globals :=
  ⟨hvalid, Program.declared hvalid h⟩

/-- Both passes over the typed program of an accepted text report nothing. -/
theorem Accepts.analyzed {source : Bytes} {globals : Scope} {p : Program}
    (h : Accepts source globals p) : p.Valid ∧ p.declare = ⟨globals, []⟩ ∧ p.Typed globals := by
  obtain ⟨parsed, hparse, hanalyze⟩ := h
  unfold Program.analyze at hanalyze
  rcases hdeclare : parsed.declare with ⟨globals', ds⟩
  rw [hdeclare] at hanalyze
  dsimp only at hanalyze
  split at hanalyze
  · rename_i hds
    rcases hcheck : (parsed.check globals').run with ⟨result, found⟩
    rw [hcheck] at hanalyze
    cases result with
    | error e => simp [Except.map] at hanalyze
    | ok q =>
      simp only [Except.map, Except.ok.injEq, Analysis.mk.injEq, Option.some.injEq] at hanalyze
      obtain ⟨rfl, rfl, rfl⟩ := hanalyze
      obtain ⟨herase, htyped⟩ := Program.check_spec hcheck
      have hvalid : q.Valid := by
        rw [← Program.valid_erase, herase, Program.valid_erase]
        exact parse_valid hparse
      refine ⟨hvalid, ?_, htyped⟩
      rw [← Program.declare_erase, herase, Program.declare_erase, hdeclare]
      simpa using hds
  · simp at hanalyze

theorem Accepts.accepted {source : Bytes} {globals : Scope} {p : Program}
    (h : Accepts source globals p) : p.Accepted globals := by
  obtain ⟨hvalid, hdeclare, htyped⟩ := h.analyzed
  exact ⟨Program.resolved hvalid hdeclare, htyped⟩

end ChocoRv
