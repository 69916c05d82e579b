import ChocoRv.Proofs.DataSection

/-!
# Requests to the pool of constants

Whatever constants are asked for, and in whatever order, the pool has one entry for each of them and
no other but the two booleans. The numbers of the entries are those handed out so far, so entries,
constants and labels correspond to each other one to one. The entries are what is emitted.
-/

namespace ChocoRv.Asm

inductive Constant where
  | bool (value : Bool)
  | int (value : Int)
  | str (value : Bytes)
deriving DecidableEq

open Asm.Pool in
/-- The words of a constant behind its label. -/
def Constant.body (h : Headers) : Constant → List Item
  | bool false => boxedBody h.bool 0 (txt "False")
  | bool true => boxedBody h.bool 1 (txt "True")
  | int value => boxedBody h.int value (txt "int " ++ signed value)
  | str value => strBody h.str value

namespace Pool

/-- Asks for a constant. -/
def request (pool : Pool) : Constant → Label × Pool
  | .bool value => (boolLabel value, pool)
  | .int value => pool.int value
  | .str value => pool.str value

/-- Asks for constants one after the other. -/
def requests (pool : Pool) : List Constant → List Label × Pool
  | [] => ([], pool)
  | c :: cs =>
    let (l, pool) := pool.request c
    let (ls, pool) := pool.requests cs
    (l :: ls, pool)

/-- The constants of a pool with their numbers, in the order in which they are emitted. -/
def entries (pool : Pool) : List (Constant × Nat) :=
  (.bool false, 0) :: (.bool true, 1) ::
    (pool.ints.map (fun e => (.int e.1, e.2)) ++ pool.strs.map fun e => (.str e.1, e.2))

/-- Each constant has one number, and the numbers are those that were handed out. -/
structure Faithful (pool : Pool) : Prop where
  keys : (pool.entries.map Prod.fst).Nodup
  ids : (pool.entries.map Prod.snd).Perm (List.range pool.next)

/-- The label of a constant of the pool. -/
def Labels (pool : Pool) (c : Constant) (l : Label) : Prop :=
  ∃ k, (c, k) ∈ pool.entries ∧ l = label k

variable {pool pool' : Pool} {c c' : Constant} {k k' : Nat} {cs : List Constant}

theorem items_eq (pool : Pool) (h : Headers) :
    pool.items h = pool.entries.flatMap fun e =>
      .align 2 :: .globalLabel (label e.2) :: e.1.body h := by
  simp only [items, entries, List.flatMap_cons, List.flatMap_append, List.flatMap_map,
    List.append_assoc]
  rfl

theorem faithful_empty : Faithful {} := ⟨by decide, by decide⟩

theorem Faithful.key_unique (h : pool.Faithful) (hc : (c, k) ∈ pool.entries)
    (hc' : (c, k') ∈ pool.entries) : k = k' :=
  congrArg Prod.snd (List.inj_on_of_nodup_map h.keys hc hc' rfl)

theorem Faithful.id_unique (h : pool.Faithful) (hc : (c, k) ∈ pool.entries)
    (hc' : (c', k) ∈ pool.entries) : c = c' :=
  congrArg Prod.fst (List.inj_on_of_nodup_map (h.ids.nodup_iff.2 List.nodup_range) hc hc' rfl)

theorem lookup_eq_none {α : Type} [BEq α] [LawfulBEq α] {a : α} {es : List (α × Nat)}
    (h : es.lookup a = none) : ∀ e ∈ es, e.1 ≠ a := fun e he heq =>
  absurd (List.lookup_eq_none_iff.1 h e he) (by simp [heq])

/-- A request finds the constant, or it adds an entry with the next number. -/
theorem request_cases (pool : Pool) (c : Constant) :
    (∃ k, (c, k) ∈ pool.entries ∧ pool.request c = (label k, pool)) ∨
      c ∉ pool.entries.map Prod.fst ∧ (pool.request c).1 = label pool.next ∧
        (pool.request c).2.entries.Perm ((c, pool.next) :: pool.entries) ∧
        (pool.request c).2.next = pool.next + 1 := by
  cases c with
  | bool b => cases b <;> exact .inl ⟨_, by simp [entries], rfl⟩
  | int value =>
    simp only [request, int]
    split
    · next k hk => exact .inl ⟨k, by simp [entries, lookup_mem hk], rfl⟩
    · next hk =>
      have hnew : ∀ k, (value, k) ∉ pool.ints := fun k hmem => lookup_eq_none hk _ hmem rfl
      refine .inr ⟨by simp [entries, hnew], rfl, ?_, rfl⟩
      have hmid := @List.perm_middle _ (Constant.int value, pool.next)
        ((.bool false, 0) :: (.bool true, 1) :: pool.ints.map fun e => (.int e.1, e.2))
        (pool.strs.map fun e => (.str e.1, e.2))
      simpa [entries] using hmid
  | str value =>
    simp only [request, str]
    split
    · next k hk => exact .inl ⟨k, by simp [entries, lookup_mem hk], rfl⟩
    · next hk =>
      have hnew : ∀ k, (value, k) ∉ pool.strs := fun k hmem => lookup_eq_none hk _ hmem rfl
      refine .inr ⟨by simp [entries, hnew], rfl, ?_, rfl⟩
      have hlast := List.perm_append_singleton (Constant.str value, pool.next) pool.entries
      simpa [entries] using hlast

/-- What a list of requests does to a pool. -/
structure Serves (pool : Pool) (cs : List Constant) (ls : List Label) (pool' : Pool) : Prop where
  faithful : pool'.Faithful
  kept : pool.entries ⊆ pool'.entries
  /-- Each label is that of the constant asked for. -/
  served : List.Forall₂ pool'.Labels cs ls
  /-- Nothing else gets in. -/
  only : ∀ e ∈ pool'.entries, e ∈ pool.entries ∨ e.1 ∈ cs

theorem request_serves (h : pool.Faithful) (c : Constant) :
    pool.Serves [c] [(pool.request c).1] (pool.request c).2 := by
  rcases pool.request_cases c with ⟨k, hk, heq⟩ | ⟨hnew, hlabel, hentries, hnext⟩
  · rw [heq]
    exact ⟨h, List.Subset.refl _, .cons ⟨k, hk, rfl⟩ .nil, fun e he => .inl he⟩
  · have hmem : ∀ e, e ∈ (pool.request c).2.entries ↔ e = (c, pool.next) ∨ e ∈ pool.entries :=
      fun e => by rw [hentries.mem_iff, List.mem_cons]
    refine ⟨⟨?_, ?_⟩, fun e he => (hmem e).2 (.inr he), .cons ⟨_, (hmem _).2 (.inl rfl), hlabel⟩ .nil,
      fun e he => ?_⟩
    · exact (hentries.map Prod.fst).nodup_iff.2 (List.nodup_cons.2 ⟨hnew, h.keys⟩)
    · rw [hnext, List.range_succ]
      exact ((hentries.map Prod.snd).trans (h.ids.cons _)).trans (List.perm_append_singleton _ _).symm
    · rcases (hmem e).1 he with rfl | he
      · exact .inr List.mem_cons_self
      · exact .inl he

theorem requests_serves (h : pool.Faithful) (cs : List Constant) :
    pool.Serves cs (pool.requests cs).1 (pool.requests cs).2 := by
  induction cs generalizing pool with
  | nil => exact ⟨h, List.Subset.refl _, .nil, fun e he => .inl he⟩
  | cons c cs ih =>
    have hfirst := request_serves h c
    have hrest := ih hfirst.faithful
    obtain ⟨k, hk, hl⟩ := (List.forall₂_cons.1 hfirst.served).1
    refine ⟨hrest.faithful, List.Subset.trans hfirst.kept hrest.kept,
      .cons ⟨k, hrest.kept hk, hl⟩ hrest.served, fun e he => ?_⟩
    rcases hrest.only e he with he | he
    · exact (hfirst.only e he).imp_right fun hc => List.mem_cons.2 (.inl (List.mem_singleton.1 hc))
    · exact .inr (List.mem_cons_of_mem _ he)

theorem Faithful.labels_iff (h : pool.Faithful) {l l' : Label} (hc : pool.Labels c l)
    (hc' : pool.Labels c' l') : l = l' ↔ c = c' := by
  obtain ⟨k, hk, rfl⟩ := hc
  obtain ⟨k', hk', rfl⟩ := hc'
  constructor
  · intro heq
    obtain rfl := label_injective heq
    exact h.id_unique hk hk'
  · rintro rfl
    rw [h.key_unique hk hk']

theorem defined_items_eq (pool : Pool) (h : Headers) :
    defined (pool.items h) = pool.entries.map fun e => label e.2 := by
  rw [items_eq]
  refine defined_flatMap fun e _ => ?_
  rcases e with ⟨(_ | _) | _ | _, k⟩ <;> rfl

theorem Faithful.defined_nodup (hp : pool.Faithful) (h : Headers) :
    (defined (pool.items h)).Nodup := by
  rw [defined_items_eq]
  have hids : (pool.entries.map Prod.snd).Nodup := hp.ids.nodup_iff.2 List.nodup_range
  have hlabels := hids.map label_injective
  rwa [List.map_map] at hlabels

theorem mem_defined_iff {h : Headers} {l : Label} :
    l ∈ defined (pool.items h) ↔ ∃ c, pool.Labels c l := by
  rw [defined_items_eq, List.mem_map]
  constructor
  · rintro ⟨⟨c, k⟩, he, rfl⟩
    exact ⟨c, k, he, rfl⟩
  · rintro ⟨c, k, he, rfl⟩
    exact ⟨(c, k), he, rfl⟩

/-- The words of a constant stand behind its label. -/
theorem Labels.emitted {l : Label} (hc : pool.Labels c l) (h : Headers) :
    ∃ before after, pool.items h =
      before ++ .align 2 :: .globalLabel l :: c.body h ++ after := by
  obtain ⟨k, hk, rfl⟩ := hc
  obtain ⟨before, after, hentries⟩ := List.append_of_mem hk
  rw [items_eq, hentries, List.flatMap_append, List.flatMap_cons]
  exact ⟨_, _, (List.append_assoc ..).symm⟩

/-- The booleans have labels from the start. -/
theorem Serves.labels_bool {cs : List Constant} {ls : List Label} (h : Serves {} cs ls pool)
    (b : Bool) : pool.Labels (.bool b) (boolLabel b) := by
  refine ⟨if b then 1 else 0, h.kept ?_, ?_⟩ <;> cases b <;> decide

/-- The labels that are defined in the end are those of the booleans and those handed out. -/
theorem Serves.mem_defined_iff {cs : List Constant} {ls : List Label} (hs : Serves {} cs ls pool)
    (h : Headers) {l : Label} :
    l ∈ defined (pool.items h) ↔ l = boolLabel false ∨ l = boolLabel true ∨ l ∈ ls := by
  obtain ⟨hlength, hzip⟩ := List.forall₂_iff_zip.1 hs.served
  rw [Pool.mem_defined_iff]
  constructor
  · rintro ⟨c, k, hk, rfl⟩
    rcases hs.only _ hk with hold | hc
    · have hold : (c, k) = (.bool false, 0) ∨ (c, k) = (.bool true, 1) := by
        simpa [entries] using hold
      rcases hold with hold | hold <;> cases hold
      · exact .inl rfl
      · exact .inr (.inl rfl)
    · -- the label handed out for `c` is the one of its entry
      rw [← List.map_fst_zip hlength.le] at hc
      obtain ⟨⟨c, l⟩, hl, rfl⟩ := List.mem_map.1 hc
      obtain rfl := (hs.faithful.labels_iff (hzip hl) ⟨k, hk, rfl⟩).2 rfl
      exact .inr (.inr (List.of_mem_zip hl).2)
  · rintro (rfl | rfl | hl)
    · exact ⟨_, hs.labels_bool false⟩
    · exact ⟨_, hs.labels_bool true⟩
    · exact partner_of_mem hs.served hl

end Pool

open Asm.Pool

/-- The constants of a pool after any requests: labels stand for constants one to one, each of them
is defined once, the two booleans and what was asked for are all there is, and behind each label
stand the words of its constant. -/
theorem requests_emitted (cs : List Constant) (h : Headers) :
    ∃ (ls : List Label) (pool : Pool), Pool.requests {} cs = (ls, pool) ∧ ls.length = cs.length ∧
      (∀ c l c' l', (c, l) ∈ cs.zip ls → (c', l') ∈ cs.zip ls → (l = l' ↔ c = c')) ∧
      (defined (pool.items h)).Nodup ∧
      (∀ l, l ∈ defined (pool.items h) ↔ l = boolLabel false ∨ l = boolLabel true ∨ l ∈ ls) ∧
      ∀ c l, (c, l) ∈ (.bool false, boolLabel false) :: (.bool true, boolLabel true) :: cs.zip ls →
        ∃ before after, pool.items h =
          before ++ .align 2 :: .globalLabel l :: c.body h ++ after := by
  have hserves := requests_serves faithful_empty cs
  obtain ⟨hlength, hzip⟩ := List.forall₂_iff_zip.1 hserves.served
  refine ⟨_, _, rfl, hlength.symm, fun c l c' l' hc hc' => ?_, hserves.faithful.defined_nodup h,
    fun l => hserves.mem_defined_iff h, fun c l hcl => ?_⟩
  · exact hserves.faithful.labels_iff (hzip hc) (hzip hc')
  · rcases List.mem_cons.1 hcl with heq | hcl
    · cases heq
      exact (hserves.labels_bool false).emitted h
    rcases List.mem_cons.1 hcl with heq | hcl
    · cases heq
      exact (hserves.labels_bool true).emitted h
    · exact (hzip hcl).emitted h

example : (Pool.requests {} [.int 7, .str (txt "7"), .bool true, .int 7]).1 =
    [label 2, label 3, label 1, label 2] := by decide

end ChocoRv.Asm
