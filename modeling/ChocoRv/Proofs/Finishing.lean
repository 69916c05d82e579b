import ChocoRv.Proofs.Listings

/-!
# Finishing listings

A listing is written by a sequence of calls: most emit an item, others ask for a fresh label or
declare labels that are defined elsewhere. The check at the end reads nothing but the text. It finds
exactly the labels that the calls defined and referred to, whatever their strings and comments hold,
so a listing is finished if and only if these labels are in order.
-/

namespace ChocoRv

namespace Asm

namespace Check

variable {n : Nat} {labels labels' : Labels}

/-- What a mention that is accepted adds. -/
theorem add_inv {m : Mention} (h : add n labels m = .ok labels') :
    labels'.defined = m.defined?.toList ++ labels.defined ∧
      labels'.uses.map Prod.fst = m.referred?.toList ++ labels.uses.map Prod.fst ∧
      (labels.defined.Nodup → labels'.defined.Nodup) := by
  cases m with
  | nothing =>
    cases h
    exact ⟨rfl, rfl, id⟩
  | wrong c => cases h
  | defines l =>
    rw [add] at h
    split at h
    · cases h
    split at h
    · cases h
    · next hnew =>
      cases h
      exact ⟨rfl, rfl, fun hnodup => List.nodup_cons.2 ⟨by simpa using hnew, hnodup⟩⟩
  | refers l =>
    rw [add] at h
    split at h
    · cases h
    · cases h
      exact ⟨rfl, rfl, id⟩

/-- Lines that are collected add their labels, the last first. -/
theorem collect_inv : ∀ {lines : List Bytes} {n : Nat} {labels labels' : Labels},
    collect n labels lines = .ok labels' →
    labels'.defined =
        (((readLines lines).map mention).filterMap Mention.defined?).reverse ++ labels.defined ∧
      labels'.uses.map Prod.fst =
        (((readLines lines).map mention).filterMap Mention.referred?).reverse ++
          labels.uses.map Prod.fst ∧
      (labels.defined.Nodup → labels'.defined.Nodup)
  | [], _, _, _, h => by
    cases h
    exact ⟨rfl, rfl, id⟩
  | line :: lines, n, labels, labels', h => by
    rw [collect] at h
    rw [readLines_cons]
    cases htrim : trimLine line with
    | nil =>
      simp only [htrim, List.nil_append] at h ⊢
      exact collect_inv h
    | cons b bs =>
      simp only [htrim, List.singleton_append, List.map_cons, filterMap_cons_toList] at h ⊢
      split at h
      · cases h
      · next labels₁ hadd =>
        obtain ⟨hdefined, huses, hnodup⟩ := add_inv hadd
        obtain ⟨hdefined', huses', hnodup'⟩ := collect_inv h
        refine ⟨?_, ?_, hnodup' ∘ hnodup⟩
        · rw [hdefined', hdefined, List.reverse_append, List.append_assoc]
          cases (mention (b :: bs)).defined? <;> rfl
        · rw [huses', huses, List.reverse_append, List.append_assoc]
          cases (mention (b :: bs)).referred? <;> rfl

end Check

/-- A text that passes the check defines no label twice and refers to no other labels than those
defined in it or known from elsewhere. -/
theorem of_check_ok {text : Bytes} {external : List Label} (h : check text external = .ok ()) :
    (definedIn text).Nodup ∧ ∀ l ∈ referredIn text, l ∈ definedIn text ∨ l ∈ external := by
  rw [check] at h
  cases hcollect : Check.collect 1 {} (text.split '\n'.toUInt8) with
  | error e =>
    rw [hcollect] at h
    cases h
  | ok labels =>
    obtain ⟨hdefined, huses, hnodup⟩ := Check.collect_inv hcollect
    have hdefined' : labels.defined = (definedIn text).reverse :=
      hdefined.trans (List.append_nil _)
    have huses' : labels.uses.map Prod.fst = (referredIn text).reverse :=
      huses.trans (List.append_nil _)
    refine ⟨List.nodup_reverse.1 (hdefined' ▸ hnodup List.nodup_nil), fun l hl => ?_⟩
    obtain ⟨⟨l', line⟩, hu, rfl⟩ := List.mem_map.1 (huses' ▸ List.mem_reverse.2 hl)
    simp only [hcollect, bind, Except.bind] at h
    split at h
    · next hfind =>
      have hknown := List.find?_eq_none.1 hfind _ (List.mem_reverse.2 hu)
      simpa [hdefined', Classical.or_iff_not_imp_left] using hknown
    · cases h

/-- A listing of printable items is finished exactly if its labels are in order. -/
theorem finish_ok_iff (comments : Bool) {items : List Item} (h : ∀ i ∈ items, i.Printable)
    (hlabels : ∀ i ∈ items, i.LabelsWellFormed) (fresh : Nat) (external : List Label)
    (text : Bytes) :
    Listing.finish { comments, items, fresh, external } = .ok text ↔
      text = render comments items ∧ (defined items).Nodup ∧
        ∀ l ∈ referred items, l ∈ defined items ∨ l ∈ external := by
  constructor
  · intro hfinish
    have hok : check (render comments items) external = .ok () ∧ render comments items = text := by
      change (check (render comments items) external >>= fun _ => pure (render comments items)) = _
        at hfinish
      cases hcheck : check (render comments items) external with
      | error e =>
        rw [hcheck] at hfinish
        cases hfinish
      | ok u =>
        rw [hcheck] at hfinish
        exact ⟨rfl, Except.ok.inj hfinish⟩
    have hin := of_check_ok hok.1
    rw [definedIn_render h hlabels, referredIn_render h hlabels] at hin
    exact ⟨hok.2.symm, hin⟩
  · rintro ⟨rfl, hnodup, hknown⟩
    exact finish_ok comments h hlabels hnodup hknown

/-! ### Calls -/

/-- A call on a listing. -/
inductive Call where
  | emit (i : Item)
  | newLabel (stem : Bytes)
  | declareExternal (labels : List Label)

namespace Call

def perform (l : Listing) : Call → Listing
  | emit i => l.emit [i]
  | newLabel stem => (l.newLabel stem).2
  | declareExternal labels => l.declareExternal labels

def item? : Call → Option Item
  | emit i => some i
  | _ => none

def externals : Call → List Label
  | declareExternal labels => labels
  | _ => []

/-- The text that a call writes. -/
def text (comments : Bool) : Call → Bytes
  | emit i => i.render comments
  | _ => []

def defines? (c : Call) : Option Label := c.item?.bind Item.defines?

def refers? (c : Call) : Option Label := c.item?.bind Item.refers?

/-- The item of a call can be printed, and its labels look like labels. -/
def Proper (c : Call) : Prop := ∀ i, c.item? = some i → i.Printable ∧ i.LabelsWellFormed

end Call

/-- The listing after some calls. -/
def Listing.after (l : Listing) (calls : List Call) : Listing := calls.foldl Call.perform l

/-- What one call does to a listing. -/
theorem Call.perform_eq (l : Listing) (c : Call) :
    (c.perform l).comments = l.comments ∧ (c.perform l).items = l.items ++ c.item?.toList ∧
      (c.perform l).external = l.external ++ c.externals := by
  cases c with
  | emit i => exact ⟨rfl, rfl, (List.append_nil _).symm⟩
  | newLabel stem => exact ⟨rfl, (List.append_nil _).symm, (List.append_nil _).symm⟩
  | declareExternal labels => exact ⟨rfl, (List.append_nil _).symm, rfl⟩

/-- What a sequence of calls does to a listing. -/
theorem Listing.after_eq : ∀ (calls : List Call) (l : Listing),
    (l.after calls).comments = l.comments ∧
      (l.after calls).items = l.items ++ calls.filterMap Call.item? ∧
      (l.after calls).external = l.external ++ calls.flatMap Call.externals
  | [], l => ⟨rfl, (List.append_nil _).symm, (List.append_nil _).symm⟩
  | c :: calls, l => by
    obtain ⟨hcomments, hitems, hexternal⟩ := c.perform_eq l
    obtain ⟨hcomments', hitems', hexternal'⟩ := after_eq calls (c.perform l)
    refine ⟨hcomments'.trans hcomments, hitems'.trans ?_, hexternal'.trans ?_⟩
    · rw [hitems, Check.filterMap_cons_toList, List.append_assoc]
    · rw [hexternal, List.flatMap_cons, List.append_assoc]

/-- The texts of the calls are the text of their items. -/
theorem render_calls (comments : Bool) : ∀ calls : List Call,
    render comments (calls.filterMap Call.item?) = calls.flatMap (Call.text comments)
  | [] => rfl
  | c :: calls => by
    rw [Check.filterMap_cons_toList, List.flatMap_cons, ← render_calls comments calls]
    cases c <;> rfl

/-- After any calls a listing is finished if and only if no label was defined twice and every label
that was referred to was defined, before or after, or declared external; its text is then all that
the calls wrote. -/
theorem finish_after_iff (comments : Bool) (calls : List Call) (h : ∀ c ∈ calls, c.Proper)
    (text : Bytes) :
    (Listing.after { comments } calls).finish = .ok text ↔
      text = calls.flatMap (Call.text comments) ∧ (calls.filterMap Call.defines?).Nodup ∧
        ∀ l ∈ calls.filterMap Call.refers?,
          l ∈ calls.filterMap Call.defines? ∨ ∃ c ∈ calls, l ∈ c.externals := by
  obtain ⟨hcomments, hitems, hexternal⟩ := Listing.after_eq calls { comments }
  have hproper : ∀ i ∈ calls.filterMap Call.item?, i.Printable ∧ i.LabelsWellFormed := fun i hi => by
    obtain ⟨c, hc, hitem⟩ := List.mem_filterMap.1 hi
    exact h c hc i hitem
  have hiff := finish_ok_iff comments (fun i hi => (hproper i hi).1) (fun i hi => (hproper i hi).2)
    (Listing.after { comments } calls).fresh (calls.flatMap Call.externals) text
  rw [render_calls, defined, referred, List.filterMap_filterMap, List.filterMap_filterMap] at hiff
  have heq : Listing.after { comments } calls =
      { comments, items := calls.filterMap Call.item?, external := calls.flatMap Call.externals,
        fresh := (Listing.after { comments } calls).fresh } := by
    rw [Listing.mk.injEq]
    exact ⟨hcomments, hitems, rfl, hexternal⟩
  rw [heq]
  simp only [List.mem_flatMap] at hiff
  exact hiff

/-- Calls whose string and comments look like labels and references. -/
def greeting : List Call :=
  [.declareExternal [txt "print"], .emit (.section_ .data),
   .emit (.label (txt "text") (txt "see \"text: # la a0, nowhere")),
   .emit (.string (txt "j there # \"\\\nthere:") (txt "quotes \"")), .emit (.section_ .text),
   .emit (.globalLabel (txt "main")), .newLabel (txt "loop"),
   .emit (.instr (.la .a0 (txt "text")) (txt "a, b(c):")), .emit (.instr (.j (txt "loop_1")) []),
   .emit (.remark (txt "loop_1:")), .emit (.instr (.load .lw .a1 .a0 (-4)) []),
   .emit (.label (txt "loop_1") []), .emit (.instr (.jal (txt "print")) [])]

theorem greeting_finished :
    (Listing.after { comments := true } greeting).finish =
        .ok (greeting.flatMap (Call.text true)) ∧
      ¬ (Listing.after { comments := true } greeting.tail).finish =
        .ok (greeting.tail.flatMap (Call.text true)) := by
  have hproper : ∀ c ∈ greeting, c.Proper := by
    simp only [greeting, List.forall_mem_cons, Call.Proper, Call.item?, Option.some.injEq,
      forall_eq', Item.LabelsWellFormed, Item.defines?, Item.refers?, Instr.label?, Item.Printable,
      Instr.regs, reduceCtorEq, false_imp_iff, implies_true, true_and, and_true, List.not_mem_nil]
    decide +kernel
  refine ⟨(finish_after_iff true _ hproper _).2 ⟨rfl, ?_⟩, fun h => ?_⟩
  · decide +kernel
  · have hknown := ((finish_after_iff true _ (fun c hc => hproper c (List.mem_of_mem_tail hc)) _).1 h).2.2
    exact absurd hknown (by decide +kernel)

end Asm

end ChocoRv
