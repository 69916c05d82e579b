import ChocoRv.Proofs.Listings

/-!
# Code that can be linked

`Emit.Links known x` says that `x` emits code from every state, and that the code can be printed and
refers to no labels but known ones, its own and those of constants. What is known may shrink on the
way out: the code around a fresh label knows it, and code that defines it needs it no more.
-/

namespace ChocoRv

open Asm

/-! ### Constants -/

namespace Asm.Pool

/-- The numbers of the constants; `False` and `True` are always there. -/
def ids (pool : Pool) : List Nat := 0 :: 1 :: (pool.ints.map Prod.snd ++ pool.strs.map Prod.snd)

/-- Every constant has a number of its own and every integer fits in a word. -/
structure Sound (pool : Pool) : Prop where
  nodup : pool.ids.Nodup
  lt : ∀ k ∈ pool.ids, k < pool.next
  ints : ∀ e ∈ pool.ints, 0 ≤ e.1 ∧ e.1 ≤ 2147483647

theorem sound_empty : Sound {} := ⟨by decide, by decide, by simp⟩

/-- A pool with one number more. -/
theorem Sound.next {pool pool' : Pool} (h : pool.Sound)
    (hids : pool'.ids.Perm (pool.next :: pool.ids)) (hnext : pool'.next = pool.next + 1)
    (hints : ∀ e ∈ pool'.ints, 0 ≤ e.1 ∧ e.1 ≤ 2147483647) : pool'.Sound := by
  refine ⟨hids.nodup_iff.2 (List.nodup_cons.2 ⟨fun hmem => ?_, h.nodup⟩), fun k hk => ?_, hints⟩
  · exact absurd (h.lt _ hmem) (Nat.lt_irrefl _)
  · rw [hnext]
    rcases List.mem_cons.1 (hids.mem_iff.1 hk) with rfl | hk
    · exact Nat.lt_succ_self _
    · exact Nat.lt_succ_of_lt (h.lt k hk)

theorem lookup_mem {α : Type} [BEq α] [LawfulBEq α] {a : α} {k : Nat} {es : List (α × Nat)}
    (h : es.lookup a = some k) : (a, k) ∈ es := by
  obtain ⟨before, after, rfl, -⟩ := List.lookup_eq_some_iff.1 h
  exact List.mem_append_right _ List.mem_cons_self

/-- All constants of a pool are in the other one, with the same labels. -/
structure Within (pool pool' : Pool) : Prop where
  ints : pool.ints ⊆ pool'.ints
  strs : pool.strs ⊆ pool'.strs

namespace Within

variable {pool pool' pool'' : Pool}

theorem refl (pool : Pool) : Within pool pool := ⟨List.Subset.refl _, List.Subset.refl _⟩

theorem trans (h : Within pool pool') (h' : Within pool' pool'') : Within pool pool'' :=
  ⟨List.Subset.trans h.ints h'.ints, List.Subset.trans h.strs h'.strs⟩

theorem ids (h : Within pool pool') : ∀ k ∈ pool.ids, k ∈ pool'.ids := by
  intro k hk
  simp only [Pool.ids, List.mem_cons, List.mem_append] at hk ⊢
  exact hk.imp_right (.imp_right (.imp (fun hk => List.map_subset _ h.ints hk)
    fun hk => List.map_subset _ h.strs hk))

end Within

theorem boolLabel_mem (pool : Pool) (b : Bool) : ∃ k ∈ pool.ids, boolLabel b = label k := by
  cases b
  · exact ⟨0, by simp [ids], rfl⟩
  · exact ⟨1, by simp [ids], rfl⟩

/-- What asking for a constant does to a pool. -/
structure Grows (pool : Pool) (l : Label) (pool' : Pool) : Prop where
  within : pool.Within pool'
  sound : pool.Sound → pool'.Sound
  label : ∃ k ∈ pool'.ids, l = Pool.label k

/-- The label of an integer is that of its constant. -/
theorem int_mem (pool : Pool) (value : Int) :
    ∃ k, (pool.int value).1 = label k ∧ (value, k) ∈ (pool.int value).2.ints := by
  unfold int
  split
  · rename_i k hk
    exact ⟨k, rfl, lookup_mem hk⟩
  · exact ⟨_, rfl, List.mem_append_right _ List.mem_cons_self⟩

theorem str_mem (pool : Pool) (value : Bytes) :
    ∃ k, (pool.str value).1 = label k ∧ (value, k) ∈ (pool.str value).2.strs := by
  unfold str
  split
  · rename_i k hk
    exact ⟨k, rfl, lookup_mem hk⟩
  · exact ⟨_, rfl, List.mem_append_right _ List.mem_cons_self⟩

theorem within_int (pool : Pool) (value : Int) : pool.Within (pool.int value).2 := by
  unfold int
  split
  · exact .refl pool
  · exact ⟨List.subset_append_left _ _, List.Subset.refl _⟩

theorem within_str (pool : Pool) (value : Bytes) : pool.Within (pool.str value).2 := by
  unfold str
  split
  · exact .refl pool
  · exact ⟨List.Subset.refl _, List.subset_append_left _ _⟩

theorem int_grows (pool : Pool) {value : Int} (hvalue : 0 ≤ value ∧ value ≤ 2147483647) :
    Grows pool (pool.int value).1 (pool.int value).2 := by
  obtain ⟨k, hlabel, hk⟩ := pool.int_mem value
  refine ⟨pool.within_int value, fun h => ?_, k, ?_, hlabel⟩
  · unfold int
    split
    · exact h
    · have hids : Pool.ids { pool with
          ints := pool.ints ++ [(value, pool.next)], next := pool.next + 1 } =
            0 :: 1 :: (pool.ints.map Prod.snd ++ pool.next :: pool.strs.map Prod.snd) := by
        simp [Pool.ids]
      have hperm : (0 :: 1 :: (pool.ints.map Prod.snd ++ pool.next :: pool.strs.map Prod.snd)).Perm
          (pool.next :: pool.ids) :=
        @List.perm_middle _ _ (0 :: 1 :: pool.ints.map Prod.snd) _
      refine h.next (hids ▸ hperm) rfl ?_
      exact List.forall_mem_append.2 ⟨h.ints, List.forall_mem_singleton.2 hvalue⟩
  · have hmem := (List.mem_map_of_mem hk : _ ∈ List.map Prod.snd _)
    exact List.mem_cons_of_mem _ (List.mem_cons_of_mem _ (List.mem_append_left _ hmem))

theorem str_grows (pool : Pool) (value : Bytes) :
    Grows pool (pool.str value).1 (pool.str value).2 := by
  obtain ⟨k, hlabel, hk⟩ := pool.str_mem value
  refine ⟨pool.within_str value, fun h => ?_, k, ?_, hlabel⟩
  · unfold str
    split
    · exact h
    · have hids : Pool.ids { pool with
          strs := pool.strs ++ [(value, pool.next)], next := pool.next + 1 } =
            pool.ids ++ [pool.next] := by
        simp [Pool.ids]
      exact h.next (hids ▸ List.perm_append_singleton _ _) rfl h.ints
  · have hmem := (List.mem_map_of_mem hk : _ ∈ List.map Prod.snd _)
    exact List.mem_cons_of_mem _ (List.mem_cons_of_mem _ (List.mem_append_right _ hmem))

end Asm.Pool

/-! ### Code that can be linked -/

/-- The code can be printed, and refers to known labels, to its own and to those of constants. -/
structure Linkable (known : Label → Prop) (s : EmitState) (code : List Item) (s' : EmitState) :
    Prop where
  printable : ∀ i ∈ code, i.Printable
  labels : ∀ l ∈ referred code, known l ∨ l ∈ defined code ∨ ∃ k ∈ s'.pool.ids, l = Pool.label k
  within : s.pool.Within s'.pool
  pool : s.pool.Sound → s'.pool.Sound

namespace Linkable

variable {known known' : Label → Prop} {s s₁ s₂ : EmitState} {code more : List Item}

theorem mono (h : Linkable known s code s₁) (hknown : ∀ l, known l → known' l) :
    Linkable known' s code s₁ :=
  ⟨h.printable, fun l hl => (h.labels l hl).imp_left (hknown l), h.within, h.pool⟩

theorem append (h : Linkable known s code s₁) (h' : Linkable known s₁ more s₂) :
    Linkable known s (code ++ more) s₂ := by
  refine ⟨List.forall_mem_append.2 ⟨h.printable, h'.printable⟩, fun l hl => ?_,
    h.within.trans h'.within, fun hs => h'.pool (h.pool hs)⟩
  rw [referred, List.filterMap_append, List.mem_append] at hl
  rw [defined_append, List.mem_append]
  rcases hl with hl | hl
  · rcases h.labels l hl with hknown | hdef | ⟨k, hk, rfl⟩
    exacts [.inl hknown, .inr (.inl (.inl hdef)), .inr (.inr ⟨k, h'.within.ids k hk, rfl⟩)]
  · rcases h'.labels l hl with hknown | hdef | hconst
    exacts [.inl hknown, .inr (.inl (.inr hdef)), .inr (.inr hconst)]

/-- Code that leaves the constants as they are. -/
theorem of_pool (hprintable : ∀ i ∈ code, i.Printable) (hlabels : ∀ l ∈ referred code, known l)
    (hpool : s.pool = s₁.pool) : Linkable known s code s₁ :=
  ⟨hprintable, fun l hl => .inl (hlabels l hl), hpool ▸ .refl _, hpool ▸ id⟩

/-- A label that the code defines need not be known. -/
theorem close {l : Label} (h : Linkable (fun l' => known l' ∨ l' = l) s code s₁)
    (hl : l ∈ defined code) : Linkable known s code s₁ := by
  refine ⟨h.printable, fun l' hl' => ?_, h.within, h.pool⟩
  rcases h.labels l' hl' with (hknown | rfl) | hrest
  exacts [.inl hknown, .inr (.inl hl), .inr hrest]

end Linkable

/-- The registers have names and the comment stays on the line. -/
def Clean (rs : List Reg) (comment : String) : Prop :=
  (∀ r ∈ rs, r ∈ Reg.named) ∧ newline ∉ txt comment

instance (rs : List Reg) (comment : String) : Decidable (Clean rs comment) :=
  inferInstanceAs (Decidable (_ ∧ _))

namespace Emit

variable {α β : Type} {known known' : Label → Prop}

/-- The computation emits code that can be linked. -/
def Links (known : Label → Prop) (x : Emit α) : Prop :=
  ∀ s, Ok x s fun _ code s' => Linkable known s code s'

/-- The label is among those that the computation defines. -/
def Defines (l : Label) (x : Emit α) : Prop := ∀ s, All x s fun _ code _ => l ∈ defined code

theorem Defines.label (l : Label) : Defines l (label l) := by
  intro s
  rw [Emit.label, all_items]
  exact List.mem_singleton_self l

theorem Defines.right {l : Label} {x : Emit α} {f : α → Emit β} (hf : ∀ a, Defines l (f a)) :
    Defines l (x >>= f) := by
  intro s
  rw [all_bind]
  intro a code s₁ _ b more s₂ hb
  rw [defined_append]
  exact List.mem_append_right _ (hf a s₁ b more s₂ hb)

theorem Defines.left {l : Label} {x : Emit α} {f : α → Emit β} (hx : Defines l x) :
    Defines l (x >>= f) := by
  intro s
  rw [all_bind]
  intro a code s₁ ha b more s₂ _
  rw [defined_append]
  exact List.mem_append_left _ (hx s a code s₁ ha)

namespace Links

theorem mono {x : Emit α} (h : Links known x) (hknown : ∀ l, known l → known' l) :
    Links known' x :=
  fun s => (h s).mono fun _ _ _ h => h.mono hknown

theorem weaken {x : Emit α} {l : Label} (h : Links known x) :
    Links (fun l' => known l' ∨ l' = l) x :=
  h.mono fun _ => .inl

theorem bind {x : Emit α} {f : α → Emit β} (hx : Links known x) (hf : ∀ a, Links known (f a)) :
    Links known (x >>= f) := by
  intro s
  rw [ok_bind]
  exact (hx s).mono fun a code s₁ h => (hf a s₁).mono fun b more s₂ h' => h.append h'

theorem pure (a : α) : Links known (pure a : Emit α) := by
  intro s
  rw [ok_pure]
  exact .of_pool (by simp) (by simp [referred]) rfl

theorem items {code : List Item} (hprintable : ∀ i ∈ code, i.Printable)
    (hlabels : ∀ l ∈ referred code, known l) : Links known (items code) := by
  intro s
  rw [ok_items]
  exact .of_pool hprintable hlabels rfl

theorem need {a? : Option α} {a : α} {e : CodegenFault} {f : α → Emit β} (ha : a? = some a)
    (hf : Links known (f a)) : Links known (need a? e >>= f) := by
  intro s
  rw [ok_bind, ok_need]
  exact ⟨a, ha, hf s⟩

theorem ofExcept {r : Except CodegenFault α} {a : α} {f : α → Emit β} (ha : r = .ok a)
    (hf : Links known (f a)) : Links known (ofExcept r >>= f) := by
  intro s
  rw [ok_bind, ok_ofExcept]
  exact ⟨a, ha, hf s⟩

/-- A fresh label that is defined is known to the code around it. -/
theorem fresh {stem : String} {f : Label → Emit β}
    (hf : ∀ l, Links (fun l' => known l' ∨ l' = l) (f l)) (hdef : ∀ l, Defines l (f l)) :
    Links known (fresh stem >>= f) := by
  intro s
  rw [ok_bind, ok_fresh]
  refine ((hf _ _).and_all (hdef _ _)).mono fun b more s₂ h => ?_
  obtain ⟨hlinked, hmem⟩ := h
  exact ⟨hlinked.printable, (hlinked.close hmem).labels, hlinked.within, hlinked.pool⟩

theorem constant {x : Emit Label} {f : Label → Emit β}
    (hx : ∀ s : EmitState, Ok x s fun l code s' => code = [] ∧ Pool.Grows s.pool l s'.pool)
    (hf : ∀ l, Links (fun l' => known l' ∨ l' = l) (f l)) : Links known (x >>= f) := by
  intro s
  rw [ok_bind]
  refine (hx s).mono fun l code s₁ h => (hf l s₁).mono fun b more s₂ h' => ?_
  obtain ⟨rfl, hgrows⟩ := h
  obtain ⟨k, hk, rfl⟩ := hgrows.label
  refine ⟨h'.printable, fun l' hl' => ?_, hgrows.within.trans h'.within,
    fun hs => h'.pool (hgrows.sound hs)⟩
  rcases h'.labels l' hl' with (hknown | rfl) | hrest
  exacts [.inl hknown, .inr (.inr ⟨k, h'.within.ids k hk, rfl⟩), .inr hrest]

theorem intConstant {value : Int} {f : Label → Emit β} (hvalue : 0 ≤ value ∧ value ≤ 2147483647)
    (hf : ∀ l, Links (fun l' => known l' ∨ l' = l) (f l)) :
    Links known (intConstant value >>= f) :=
  constant (fun s => by rw [ok_intConstant]; exact ⟨rfl, s.pool.int_grows hvalue⟩) hf

theorem strConstant {value : Bytes} {f : Label → Emit β}
    (hf : ∀ l, Links (fun l' => known l' ∨ l' = l) (f l)) :
    Links known (strConstant value >>= f) :=
  constant (fun s => by rw [ok_strConstant]; exact ⟨rfl, s.pool.str_grows value⟩) hf

theorem label (l : Label) : Links known (label l) :=
  items (List.forall_mem_singleton.2 (by simp [Item.Printable])) (by simp [referred, Item.refers?])

theorem instr {i : Instr} {c : String} (h : Clean i.regs c)
    (hl : ∀ l, i.label? = some l → known l) : Links known (instr i c) := by
  refine items (List.forall_mem_singleton.2 h) fun l hmem => hl l ?_
  cases hlabel : i.label? <;> simp [referred, Item.refers?, hlabel, eq_comm] at hmem ⊢
  exact hmem

theorem instrOf {i : Instr} {c : String} {x : Name} (h : Clean i.regs c) (hx : newline ∉ x)
    (hl : ∀ l, i.label? = some l → known l) : Links known (instrOf i c x) := by
  refine items (List.forall_mem_singleton.2 ⟨h.1, ?_⟩) fun l hmem => hl l ?_
  · rw [List.mem_append, not_or]
    exact ⟨h.2, hx⟩
  · cases hlabel : i.label? <;> simp [referred, Item.refers?, hlabel, eq_comm] at hmem ⊢
    exact hmem

section
variable {rd rs rs₁ rs₂ : Reg} {imm : Int} {c : String} {l : Label}

theorem add (h : Clean [rd, rs₁, rs₂] c) : Links known (add rd rs₁ rs₂ c) :=
  instr h (by simp [Instr.label?])

theorem addi (h : Clean [rd, rs] c) : Links known (addi rd rs imm c) :=
  instr h (by simp [Instr.label?])

theorem slli (h : Clean [rd, rs] "") : Links known (slli rd rs imm) :=
  instr h (by simp [Instr.label?])

theorem mv (h : Clean [rd, rs] c) : Links known (mv rd rs c) :=
  instr h (by simp [Instr.label?])

theorem li (h : Clean [rd] c) : Links known (li rd imm c) :=
  instr h (by simp [Instr.label?])

theorem lw (h : Clean [rd, rs] c) : Links known (lw rd rs imm c) :=
  instr h (by simp [Instr.label?])

theorem sw (h : Clean [rd, rs] c) : Links known (sw rd rs imm c) :=
  instr h (by simp [Instr.label?])

theorem la (h : Clean [rd] c) (hl : known l) : Links known (la rd l c) :=
  instr h (by simpa [Instr.label?] using hl)

theorem branch {k : Cond} (h : Clean [rs₁, rs₂] c) (hl : known l) :
    Links known (branch k rs₁ rs₂ l c) :=
  instr h (by simpa [Instr.label?] using hl)

theorem beqz (h : Clean [rs] c) (hl : known l) : Links known (beqz rs l c) :=
  instr h (by simpa [Instr.label?] using hl)

theorem j (hl : known l) : Links known (j l) :=
  instr (show Clean [] "" by decide) (by simpa [Instr.label?] using hl)

theorem jal (h : Clean [] c) (hl : known l) : Links known (jal l c) :=
  instr h (by simpa [Instr.label?] using hl)

theorem push (h : Clean [rs, .sp] c) : Links known (push rs c) :=
  bind (addi (by decide)) fun _ => sw h

theorem pop (h : Clean [rd, .sp] "") : Links known (pop rd) :=
  bind (lw h) fun _ => addi (by decide)

theorem popDiscard (n : Nat) : Links known (popDiscard n) := addi (by decide)

end

theorem forM {γ : Type} {f : γ → Emit Unit} : ∀ {cs : List γ}, (∀ c ∈ cs, Links known (f c)) →
    Links known (cs.forM f)
  | [], _ => pure ()
  | c :: cs, h => by
    obtain ⟨hc, hcs⟩ := List.forall_mem_cons.1 h
    show Links known (f c >>= fun _ => cs.forM f)
    exact bind hc fun _ => forM hcs

/-- The label of a boxed bool is always there. -/
theorem la_bool (b : Bool) {rd : Reg} {c : String} (h : Clean [rd] c) :
    Links known (Emit.la rd (Pool.boolLabel b) c) := by
  intro s
  rw [Emit.la, Emit.instr, ok_items]
  refine ⟨List.forall_mem_singleton.2 h, fun l hl => .inr (.inr ?_), .refl _, id⟩
  obtain rfl : l = Pool.boolLabel b := by simpa [referred, Item.refers?, Instr.label?] using hl
  exact Pool.boolLabel_mem s.pool b

end Links

end Emit

end ChocoRv
