import ChocoRv.Proofs.Totality

/-!
# Comments

A program has one listing, and its text is written with comments or without. The reader takes what
follows a `#` for a comment unless the byte stands in quotes. The strings of a program may hold that
byte, quotes and backslashes: they are escaped as they are written, so the quotes around a string
are the only ones that the reader counts. Either text is read as the lines that the items of the
listing say; a remark is a line of its own and is not read at all.
-/

namespace ChocoRv

open Asm Codegen

variable {globals : Scope} {p : Program}

namespace Asm

variable {items : List Item}

theorem Complete.labelsWellFormed {external : List Label} (h : Complete items external) :
    ∀ i ∈ items, i.LabelsWellFormed := fun i hi =>
  ⟨fun l hl => h.formed l (List.mem_append_left _ (List.mem_filterMap.2 ⟨i, hi, hl⟩)),
    fun l hl => h.formed l (List.mem_append_right _ (List.mem_filterMap.2 ⟨i, hi, hl⟩))⟩

/-- The text of a listing is read as the lines of its items, with comments or without. -/
theorem instructions_listing (comments : Bool) (h : ∀ i ∈ items, i.Printable)
    (hlabels : ∀ i ∈ items, i.LabelsWellFormed) :
    instructions (render comments items) = items.flatMap Item.bodies := by
  induction items with
  | nil => rfl
  | cons i items ih =>
    obtain ⟨hi, hitems⟩ := List.forall_mem_cons.1 h
    obtain ⟨hl, hls⟩ := List.forall_mem_cons.1 hlabels
    have hrest : instructions (render comments items) = items.flatMap Item.bodies := ih hitems hls
    calc instructions (render comments (i :: items))
        = instructions (i.render comments ++ render comments items) := by
          rw [render, List.flatMap_cons, ← render]
      _ = i.bodies ++ instructions (render comments items) :=
          Item.instructions_render comments hi hl _
      _ = (i :: items).flatMap Item.bodies := by rw [hrest, List.flatMap_cons]

end Asm

/-- Code generation writes the listing of an accepted program, with comments or without. -/
theorem Program.Accepted.generate_eq (hp : p.Accepted globals) : ∃ items,
    p.items globals = .ok items ∧ Complete items runtimeLabels ∧
      ∀ comments, p.generate globals comments = .ok (render comments items) := by
  obtain ⟨items, hitems, hcomplete⟩ := hp.items_complete
  refine ⟨items, hitems, hcomplete, fun comments => ?_⟩
  have hfinish := finish_ok comments hcomplete.printable hcomplete.labelsWellFormed hcomplete.nodup
    hcomplete.closed
  rw [Program.generate, hitems]
  show Except.mapError CodegenError.labels (Listing.finish _) = _
  rw [hfinish]
  rfl

/-- Comments do not change a program: code generation succeeds with comments and without, and the
two texts are read as the same lines, which are those of the listing. -/
theorem Accepts.generate_comments {source : Bytes} (h : Accepts source globals p) :
    ∃ items commented bare, p.items globals = .ok items ∧
      p.generate globals true = .ok commented ∧ p.generate globals false = .ok bare ∧
      instructions commented = instructions bare ∧
      instructions bare = items.flatMap Item.bodies := by
  obtain ⟨items, hitems, hcomplete, hgenerate⟩ := h.accepted.generate_eq
  have hread := fun comments =>
    instructions_listing comments hcomplete.printable hcomplete.labelsWellFormed
  exact ⟨items, _, _, hitems, hgenerate true, hgenerate false, (hread true).trans (hread false).symm,
    hread false⟩

/-- Strings that hold the byte that starts a comment, quotes and backslashes. -/
def hashes : Bytes :=
  txt "x:str = \"# \\\"a\\\\\"\nprint(x + \"\\\\# b\")\n"

theorem hashes_comments : ∃ globals p, Accepts hashes globals p ∧
    ∃ items commented bare, p.items globals = .ok items ∧
      p.generate globals true = .ok commented ∧ p.generate globals false = .ok bare ∧
      instructions commented = instructions bare ∧
      instructions bare = items.flatMap Item.bodies := by
  have hrun : (accepted? hashes).isSome = true := by decide +kernel
  obtain ⟨⟨globals, p⟩, hr⟩ := Option.isSome_iff_exists.1 hrun
  have haccepts := accepts_of_accepted? hr
  exact ⟨globals, p, haccepts, haccepts.generate_comments⟩

end ChocoRv
