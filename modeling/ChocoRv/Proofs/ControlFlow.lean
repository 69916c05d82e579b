import ChocoRv.Proofs.StackDiscipline

/-!
# Control flow in code

`Reached code rest` says that control, which starts with the first item, can come to where `rest` is
left of the code: from item to item, and by jumps to the labels of the code, whatever a branch
tests. Code is sealed if control never comes to its end. A piece of code is sealed whatever stands
ahead of it or behind it, as long as there are no jumps into the piece and none from it to what is
behind.
-/

namespace ChocoRv

open Asm Codegen Emit

namespace Asm

namespace Item

/-- Whether control may go on with the item behind. Calls come back. -/
def goesOn : Item → Bool
  | .instr (.j _) _ | .instr (.jr _) _ | .instr .ecall _ => false
  | _ => true

/-- The label that control may go to. -/
def jump? : Item → Option Label
  | .instr i _ => i.jump?
  | _ => none

end Item

/-- The labels that the code jumps to. -/
def jumps (code : List Item) : List Label := code.filterMap Item.jump?

@[simp] theorem jumps_append (code more : List Item) :
    jumps (code ++ more) = jumps code ++ jumps more :=
  List.filterMap_append

theorem mem_jumps {code : List Item} {item : Item} {l : Label} (hitem : item ∈ code)
    (hl : item.jump? = some l) : l ∈ jumps code :=
  List.mem_filterMap.2 ⟨item, hitem, hl⟩

theorem mem_defined {code before rest : List Item} {item : Item} {l : Label}
    (hcode : code = before ++ item :: rest) (hl : item.defines? = some l) : l ∈ defined code := by
  rw [hcode, defined_append, List.mem_append]
  exact .inr (List.mem_filterMap.2 ⟨item, List.mem_cons_self, hl⟩)

/-- Control can come to where `rest` is left of the code. -/
inductive Reached (code : List Item) : List Item → Prop
  | start : Reached code code
  | next {item : Item} {rest : List Item} (h : Reached code (item :: rest))
      (hitem : item.goesOn = true) : Reached code rest
  | jump {item target : Item} {l : Label} {rest before behind : List Item}
      (h : Reached code (item :: rest)) (hl : item.jump? = some l)
      (hcode : code = before ++ target :: behind) (htarget : target.defines? = some l) :
      Reached code (target :: behind)

/-- Control never comes to the end of the code. -/
def Sealed (code : List Item) : Prop := ¬ Reached code []

variable {code ahead behind rest : List Item}

theorem Reached.suffix (h : Reached code rest) : rest <:+ code := by
  induction h with
  | start => exact List.suffix_refl _
  | next h _ ih => exact (List.suffix_cons _ _).trans ih
  | @jump item target l rest before behind h hl hcode htarget ih => exact ⟨before, hcode.symm⟩

theorem Reached.mem {item : Item} (h : Reached code (item :: rest)) : item ∈ code :=
  h.suffix.subset List.mem_cons_self

theorem Sealed.ne_nil (h : Sealed code) : code ≠ [] := by
  rintro rfl
  exact h .start

/-- An item of two pieces of code stands in one of them. -/
theorem cons_split {target : Item} {before rest : List Item}
    (h : ahead ++ code = before ++ target :: rest) :
    (∃ more, ahead = before ++ target :: more ∧ rest = more ++ code) ∨
      ∃ more, code = more ++ target :: rest := by
  rcases List.append_eq_append_iff.1 h with ⟨more, -, hcode⟩ | ⟨more, rfl, hrest⟩
  · exact .inr ⟨more, hcode⟩
  · cases more with
    | nil => exact .inr ⟨[], hrest.symm⟩
    | cons i more =>
      obtain ⟨rfl, rfl⟩ := List.cons.inj hrest
      exact .inl ⟨more, rfl, rfl⟩

/-- Control that leaves what is ahead of some code enters the code at its start. -/
theorem Reached.of_append (hjumps : ∀ l ∈ jumps ahead, l ∉ defined code)
    (h : Reached (ahead ++ code) rest) :
    (∃ own, own ≠ [] ∧ own <:+ ahead ∧ rest = own ++ code) ∨ Reached code rest := by
  induction h with
  | start =>
    cases ahead with
    | nil => exact .inr .start
    | cons i ahead => exact .inl ⟨i :: ahead, by simp, List.suffix_refl _, rfl⟩
  | @next item rest h hitem ih =>
    rcases ih with ⟨own, hne, hsuffix, heq⟩ | ih
    · cases own with
      | nil => exact absurd rfl hne
      | cons i own =>
        obtain ⟨rfl, rfl⟩ := List.cons.inj heq
        cases own with
        | nil => exact .inr .start
        | cons j own => exact .inl ⟨j :: own, by simp, (List.suffix_cons _ _).trans hsuffix, rfl⟩
    · exact .inr (ih.next hitem)
  | @jump item target l rest before behind h hl hcode htarget ih =>
    rcases cons_split hcode with ⟨more, hahead, rfl⟩ | ⟨more, hmore⟩
    · exact .inl ⟨target :: more, by simp, ⟨before, hahead.symm⟩, rfl⟩
    · rcases ih with ⟨own, hne, hsuffix, heq⟩ | ih
      · cases own with
        | nil => exact absurd rfl hne
        | cons i own =>
          obtain ⟨rfl, rfl⟩ := List.cons.inj heq
          exact absurd (mem_defined hmore htarget)
            (hjumps l (mem_jumps (hsuffix.subset List.mem_cons_self) hl))
      · exact .inr (ih.jump hl hmore htarget)

theorem Sealed.append_right (h : Sealed code) (hjumps : ∀ l ∈ jumps ahead, l ∉ defined code) :
    Sealed (ahead ++ code) := by
  intro hreach
  rcases hreach.of_append hjumps with ⟨own, hne, -, heq⟩ | hreach
  · exact hne (List.append_eq_nil_iff.1 heq.symm).1
  · exact h hreach

/-- Control that goes on from item to item stays in sealed code. -/
theorem Sealed.goesOn (h : Sealed code) {item : Item} {own : List Item} (hne : own ≠ [])
    (hown : Reached code own) (heq : item :: rest = own ++ behind) (hitem : item.goesOn = true) :
    ∃ own, own ≠ [] ∧ Reached code own ∧ rest = own ++ behind := by
  cases own with
  | nil => exact absurd rfl hne
  | cons i own =>
    obtain ⟨rfl, rfl⟩ := List.cons.inj heq
    have hnext := hown.next hitem
    exact ⟨own, fun hnil => h (hnil ▸ hnext), hnext, rfl⟩

/-- Control does not leave sealed code for what is behind, unless by a jump. -/
theorem Sealed.reached (h : Sealed code) {P : List Item → Prop}
    (hnext : ∀ item rest, P (item :: rest) → item.goesOn = true → P rest)
    (hbehind : ∀ rest, P rest → rest <:+ behind ∧ jumps rest = [])
    (hjump : ∀ l ∈ jumps code, ∀ target rest, target :: rest <:+ behind →
      target.defines? = some l → P (target :: rest))
    (hreach : Reached (code ++ behind) rest) :
    (∃ own, own ≠ [] ∧ Reached code own ∧ rest = own ++ behind) ∨ P rest := by
  induction hreach with
  | start => exact .inl ⟨code, h.ne_nil, .start, rfl⟩
  | @next item rest hreach hitem ih =>
    rcases ih with ⟨own, hne, hown, heq⟩ | ih
    · exact .inl (h.goesOn hne hown heq hitem)
    · exact .inr (hnext _ _ ih hitem)
  | @jump item target l rest before tail hreach hl hcode htarget ih =>
    rcases ih with ⟨own, hne, hown, heq⟩ | ih
    · cases own with
      | nil => exact absurd rfl hne
      | cons i own =>
        obtain ⟨rfl, rfl⟩ := List.cons.inj heq
        rcases cons_split hcode with ⟨more, hmore, rfl⟩ | ⟨more, hmore⟩
        · exact .inl ⟨target :: more, by simp, hown.jump hl hmore htarget, rfl⟩
        · exact .inr (hjump l (mem_jumps hown.mem hl) _ _ ⟨more, hmore.symm⟩ htarget)
    · have hmem : l ∈ jumps (item :: rest) := mem_jumps List.mem_cons_self hl
      rw [(hbehind _ ih).2] at hmem
      cases hmem

theorem Sealed.append_left (h : Sealed code) (hjumps : ∀ l ∈ jumps code, l ∉ defined behind) :
    Sealed (code ++ behind) := by
  intro hreach
  have hcases := h.reached (P := fun _ => False) (fun _ _ h _ => h) (fun _ h => h.elim)
    (fun l hl target rest hsuffix htarget =>
      hjumps l hl (mem_defined hsuffix.choose_spec.symm htarget)) hreach
  rcases hcases with ⟨own, hne, -, heq⟩ | hfalse
  · exact hne (List.append_eq_nil_iff.1 heq.symm).1
  · exact hfalse

/-- Code that ends with a jump is sealed. -/
theorem sealed_of_jump (code : List Item) (l : Label) (c : Bytes) :
    Sealed (code ++ [.instr (.j l) c]) := by
  have hlast : Sealed [.instr (.j l) c] := by
    have hne : ∀ rest, Reached [.instr (.j l) c] rest → rest ≠ [] := by
      intro rest h
      induction h with
      | start => exact List.cons_ne_nil _ _
      | next h hitem _ =>
        obtain rfl := List.mem_singleton.1 h.mem
        cases hitem
      | jump => exact List.cons_ne_nil _ _
    exact fun hreach => hne [] hreach rfl
  exact hlast.append_right fun _ _ => List.not_mem_nil

/-- Control does not come to the item behind sealed code, if that item is no label and there are no
jumps from behind it. -/
theorem Sealed.not_reached (h : Sealed code) {item : Item} (hitem : item.defines? = none)
    (hahead : ∀ l ∈ jumps ahead, l ∉ defined (code ++ item :: behind))
    (hbehind : jumps behind = []) :
    ¬ Reached (ahead ++ (code ++ item :: behind)) (item :: behind) := by
  intro hreach
  rcases hreach.of_append hahead with ⟨own, hne, -, heq⟩ | hreach
  · have hlen := congrArg List.length heq
    have hpos := List.length_pos_of_ne_nil hne
    simp only [List.length_append] at hlen
    omega
  · have hcases := h.reached (P := fun rest => rest <:+ behind)
      (fun i rest hrest _ => (List.suffix_cons i rest).trans hrest)
      (fun rest hrest => ⟨hrest.trans (List.suffix_cons _ _), ?_⟩) ?_ hreach
    · rcases hcases with ⟨own, hne, -, heq⟩ | hsuffix
      · have hlen := congrArg List.length heq
        have hpos := List.length_pos_of_ne_nil hne
        rw [List.length_append] at hlen
        omega
      · have hlen := hsuffix.length_le
        rw [List.length_cons] at hlen
        omega
    · obtain ⟨front, rfl⟩ := hrest
      rw [jumps_append] at hbehind
      exact (List.append_eq_nil_iff.1 hbehind).2
    · intro l _ target rest hsuffix htarget
      rcases List.suffix_cons_iff.1 hsuffix with heq | hsuffix
      · obtain ⟨rfl, -⟩ := List.cons.inj heq
        cases hitem.symm.trans htarget
      · exact hsuffix

/-! ### Conditionals -/

section Branches

variable {yes no : List Item} {l₁ l₂ : Label} {c₁ c₂ c₃ c₄ : Bytes}

/-- A conditional from its branch on: what stands behind the jump over the second branch begins
with the label of that branch. -/
def branchCode (yes no : List Item) (l₁ l₂ : Label) (c₁ c₂ c₃ c₄ : Bytes) : List Item :=
  .instr (.branchZero .beqz .a0 l₁) c₁ ::
    (yes ++ .instr (.j l₂) c₂ :: .label l₁ c₃ :: (no ++ [.label l₂ c₄]))

theorem branchCode_target {target : Item} {before behind : List Item} {l : Label}
    (h : branchCode yes no l₁ l₂ c₁ c₂ c₃ c₄ = before ++ target :: behind)
    (hl : target.defines? = some l) :
    (∃ before more, yes = before ++ target :: more ∧
      behind = more ++ .instr (.j l₂) c₂ :: .label l₁ c₃ :: (no ++ [.label l₂ c₄])) ∨
    (l = l₁ ∧ target :: behind = .label l₁ c₃ :: (no ++ [.label l₂ c₄])) ∨
    (∃ before more, no = before ++ target :: more ∧ behind = more ++ [.label l₂ c₄]) ∨
    l = l₂ := by
  have hinstr : ∀ (i : Instr) (c : Bytes) {code before : List Item},
      .instr i c :: code = before ++ target :: behind →
        ∃ before, code = before ++ target :: behind := by
    intro i c code before h
    cases before with
    | nil =>
      obtain ⟨rfl, -⟩ := List.cons.inj h
      cases hl
    | cons j before => exact ⟨before, (List.cons.inj h).2⟩
  obtain ⟨before, h⟩ := hinstr _ _ h
  rcases cons_split h with ⟨more, hyes, rfl⟩ | ⟨before, h⟩
  · exact .inl ⟨before, more, hyes, rfl⟩
  obtain ⟨before, h⟩ := hinstr _ _ h
  cases before with
  | nil =>
    obtain ⟨rfl, rfl⟩ := List.cons.inj h
    cases hl
    exact .inr (.inl ⟨rfl, rfl⟩)
  | cons i before =>
    rcases cons_split (List.cons.inj h).2 with ⟨more, hno, rfl⟩ | ⟨before, h⟩
    · exact .inr (.inr (.inl ⟨before, more, hno, rfl⟩))
    · cases before with
      | nil =>
        obtain ⟨rfl, rfl⟩ := List.cons.inj h
        cases hl
        exact .inr (.inr (.inr rfl))
      | cons j before => cases before <;> cases (List.cons.inj h).2

/-- Where control goes in a conditional with sealed branches. -/
inductive InBranch (yes no : List Item) (l₁ l₂ : Label) (c₁ c₂ c₃ c₄ : Bytes) : List Item → Prop
  | test : InBranch yes no l₁ l₂ c₁ c₂ c₃ c₄ (branchCode yes no l₁ l₂ c₁ c₂ c₃ c₄)
  | yes {own : List Item} (hne : own ≠ []) (h : Reached yes own) :
      InBranch yes no l₁ l₂ c₁ c₂ c₃ c₄
        (own ++ .instr (.j l₂) c₂ :: .label l₁ c₃ :: (no ++ [.label l₂ c₄]))
  | otherwise : InBranch yes no l₁ l₂ c₁ c₂ c₃ c₄ (.label l₁ c₃ :: (no ++ [.label l₂ c₄]))
  | no {own : List Item} (hne : own ≠ []) (h : Reached no own) :
      InBranch yes no l₁ l₂ c₁ c₂ c₃ c₄ (own ++ [.label l₂ c₄])

theorem InBranch.next (hyes : Sealed yes) (hno : Sealed no) {item : Item}
    (h : InBranch yes no l₁ l₂ c₁ c₂ c₃ c₄ (item :: rest)) (hitem : item.goesOn = true) :
    InBranch yes no l₁ l₂ c₁ c₂ c₃ c₄ rest := by
  generalize hrest : item :: rest = here at h
  cases h with
  | test =>
    obtain ⟨-, rfl⟩ := List.cons.inj hrest
    exact .yes hyes.ne_nil .start
  | yes hne hown =>
    obtain ⟨own, hne, hown, rfl⟩ := hyes.goesOn hne hown hrest hitem
    exact .yes hne hown
  | otherwise =>
    obtain ⟨-, rfl⟩ := List.cons.inj hrest
    exact .no hno.ne_nil .start
  | no hne hown =>
    obtain ⟨own, hne, hown, rfl⟩ := hno.goesOn hne hown hrest hitem
    exact .no hne hown

/-- The labels of a conditional and of its branches are apart, and so are their jumps. -/
structure BranchesApart (yes no : List Item) (l₁ l₂ : Label) : Prop where
  ne : l₁ ≠ l₂
  notMemYes : l₁ ∉ defined yes
  notMemNo : l₁ ∉ defined no
  ofYes : ∀ l ∈ jumps yes, l ≠ l₁ ∧ l ≠ l₂ ∧ l ∉ defined no
  ofNo : ∀ l ∈ jumps no, l ≠ l₁ ∧ l ≠ l₂ ∧ l ∉ defined yes

theorem InBranch.jump (happart : BranchesApart yes no l₁ l₂) {item target : Item} {l : Label}
    {before : List Item} (h : InBranch yes no l₁ l₂ c₁ c₂ c₃ c₄ (item :: rest))
    (hl : item.jump? = some l)
    (hcode : branchCode yes no l₁ l₂ c₁ c₂ c₃ c₄ = before ++ target :: behind)
    (htarget : target.defines? = some l) :
    InBranch yes no l₁ l₂ c₁ c₂ c₃ c₄ (target :: behind) := by
  have hplace := branchCode_target hcode htarget
  generalize hrest : item :: rest = here at h
  cases h with
  | test =>
    obtain ⟨rfl, -⟩ := List.cons.inj hrest
    obtain rfl : l₁ = l := Option.some.inj hl
    rcases hplace with ⟨_, more, hyes, -⟩ | ⟨-, heq⟩ | ⟨_, more, hno, -⟩ | rfl
    · exact absurd (mem_defined hyes htarget) happart.notMemYes
    · rw [heq]
      exact .otherwise
    · exact absurd (mem_defined hno htarget) happart.notMemNo
    · exact absurd rfl happart.ne
  | @yes own hne hown =>
    cases own with
    | nil => exact absurd rfl hne
    | cons i own =>
      obtain ⟨rfl, rfl⟩ := List.cons.inj hrest
      obtain ⟨h₁, h₂, hno⟩ := happart.ofYes l (mem_jumps hown.mem hl)
      rcases hplace with ⟨_, more, hmore, rfl⟩ | ⟨rfl, -⟩ | ⟨_, more, hmore, -⟩ | rfl
      · exact .yes (List.cons_ne_nil target more) (hown.jump hl hmore htarget)
      · exact absurd rfl h₁
      · exact absurd (mem_defined hmore htarget) hno
      · exact absurd rfl h₂
  | otherwise =>
    obtain ⟨rfl, -⟩ := List.cons.inj hrest
    cases hl
  | @no own hne hown =>
    cases own with
    | nil => exact absurd rfl hne
    | cons i own =>
      obtain ⟨rfl, rfl⟩ := List.cons.inj hrest
      obtain ⟨h₁, h₂, hyes⟩ := happart.ofNo l (mem_jumps hown.mem hl)
      rcases hplace with ⟨_, more, hmore, -⟩ | ⟨rfl, -⟩ | ⟨_, more, hmore, rfl⟩ | rfl
      · exact absurd (mem_defined hmore htarget) hyes
      · exact absurd rfl h₁
      · exact .no (List.cons_ne_nil target more) (hown.jump hl hmore htarget)
      · exact absurd rfl h₂

/-- Two sealed branches, one behind a conditional jump to the other, are sealed. -/
theorem Sealed.branches (hyes : Sealed yes) (hno : Sealed no)
    (happart : BranchesApart yes no l₁ l₂) : Sealed (branchCode yes no l₁ l₂ c₁ c₂ c₃ c₄) := by
  have hin : ∀ rest, Reached (branchCode yes no l₁ l₂ c₁ c₂ c₃ c₄) rest →
      InBranch yes no l₁ l₂ c₁ c₂ c₃ c₄ rest := by
    intro rest h
    induction h with
    | start => exact .test
    | next h hitem ih => exact ih.next hyes hno hitem
    | jump h hl hcode htarget ih => exact ih.jump happart hl hcode htarget
  intro hreach
  generalize hnil : ([] : List Item) = rest at hreach
  cases hin rest hreach with
  | test => cases hnil
  | yes hne _ => exact hne (List.append_eq_nil_iff.1 hnil.symm).1
  | otherwise => cases hnil
  | no hne _ => exact hne (List.append_eq_nil_iff.1 hnil.symm).1

end Branches

end Asm

end ChocoRv
