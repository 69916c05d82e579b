import ChocoRv.Proofs.Assignability
import ChocoRv.Proofs.Routines
import ChocoRv.Proofs.Segments
import ChocoRv.Proofs.Totality

/-!
# The data section

The data of an accepted program are objects and tables of words. The words of an object are known
when it is emitted but for the labels of constants: a pool grows until the end of the code, and its
constants keep their labels. The initial value of an attribute stands in the representation of the
declared type, since only a value of that type itself goes into a place for raw words.
-/

namespace ChocoRv

open Asm Codegen Emit

/-! ### Initial values -/

/-- The item holds the value in the representation of the type, with the constants of the pool. -/
inductive Initial (pool : Pool) : Ty → Lit → Item → Prop
  | int (n : Int) (c : Bytes) : Initial pool .int (.int n) (.word n c)
  | bool (b : Bool) (c : Bytes) : Initial pool .bool (.bool b) (.word (boolWord b) c)
  | boxedInt {t : Ty} {n : Int} {k : Nat} (ht : t.isUnboxed = false) (hk : (n, k) ∈ pool.ints)
      (c : Bytes) : Initial pool t (.int n) (.wordAddress (Pool.label k) c)
  | boxedBool {t : Ty} (ht : t.isUnboxed = false) (b : Bool) (c : Bytes) :
      Initial pool t (.bool b) (.wordAddress (Pool.boolLabel b) c)
  | str {t : Ty} {v : Bytes} {k : Nat} (ht : t.isUnboxed = false) (hk : (v, k) ∈ pool.strs)
      (c : Bytes) : Initial pool t (.str v) (.wordAddress (Pool.label k) c)
  | none {t : Ty} (ht : t.isUnboxed = false) (c : Bytes) : Initial pool t .none (.word 0 c)

theorem Initial.within {pool pool' : Pool} {t : Ty} {v : Lit} {i : Item} (h : Initial pool t v i)
    (hpool : pool.Within pool') : Initial pool' t v i := by
  cases h with
  | int => exact .int _ _
  | bool => exact .bool _ _
  | boxedInt ht hk => exact .boxedInt ht (hpool.ints hk) _
  | boxedBool ht => exact .boxedBool ht _ _
  | str ht hk => exact .str ht (hpool.strs hk) _
  | none ht => exact .none ht _

theorem Initial.isWord {pool : Pool} {t : Ty} {v : Lit} {i : Item} (h : Initial pool t v i) :
    i.isWord = true := by
  cases h <;> rfl

/-- A literal goes into a place of the type, raw words into a place for them only. -/
def Lit.Suits (value : Lit) (t : Ty) : Prop := t.isUnboxed = true → Typing.litType value = t

theorem Lit.suits_of_isCompatible {h : Hierarchy} (ht : h.Tree) {value : Lit} {t : Ty}
    (hcompat : h.isCompatible t (Typing.litType value) = true) : value.Suits t := by
  have hknown : h.Known (Typing.litType value) := by
    cases value with
    | int | str | bool => exact ht.knows_special (by decide)
    | none => trivial
  exact ht.eq_of_isUnboxed hknown ((ht.isCompatible_iff hknown).1 hcompat)

theorem literalWord_initial {value : Lit} {t : Ty} (h : value.Suits t) (c : Bytes)
    (s : EmitState) : Ok (literalWord value t c) s fun _ code s' =>
      s.pool.Within s'.pool ∧ ∃ i, code = [i] ∧ Initial s'.pool t value i := by
  unfold literalWord
  cases ht : t.isUnboxed with
  | true =>
    obtain rfl := h ht
    cases value with
    | int n =>
      simp only [if_true, ok_items]
      exact ⟨.refl _, _, rfl, .int n c⟩
    | bool b =>
      simp only [if_true, ok_items]
      exact ⟨.refl _, _, rfl, .bool b c⟩
    | str v => cases ht
    | none => cases ht
  | false =>
    cases value with
    | int n =>
      simp only [Bool.false_eq_true, if_false, ok_bind, ok_intConstant, ok_items]
      obtain ⟨k, hlabel, hk⟩ := s.pool.int_mem n
      rw [hlabel]
      exact ⟨s.pool.within_int n, _, rfl, .boxedInt ht hk c⟩
    | bool b =>
      simp only [Bool.false_eq_true, if_false, ok_items]
      exact ⟨.refl _, _, rfl, .boxedBool ht b c⟩
    | str v =>
      simp only [ok_bind, ok_strConstant, ok_items]
      obtain ⟨k, hlabel, hk⟩ := s.pool.str_mem v
      rw [hlabel]
      exact ⟨s.pool.within_str v, _, rfl, .str ht hk c⟩
    | none =>
      simp only [ok_items]
      exact ⟨.refl _, _, rfl, .none ht c⟩

namespace Emit

variable {α γ : Type}

/-- Code for the data section that keeps the constants. -/
structure DataCode (s : EmitState) (code : List Item) (s' : EmitState) : Prop where
  data : ∀ i ∈ code, i.isData = true
  bounded : Bounded code
  pool : s.pool.Within s'.pool

namespace DataCode

variable {s s₁ s₂ : EmitState} {code more : List Item}

theorem of_items (hdata : ∀ i ∈ code, i.isData = true) (hbounded : Bounded code) :
    DataCode s code s :=
  ⟨hdata, hbounded, .refl _⟩

theorem append (h : DataCode s code s₁) (h' : DataCode s₁ more s₂) :
    DataCode s (code ++ more) s₂ :=
  ⟨List.forall_mem_append.2 ⟨h.data, h'.data⟩, h.bounded.append h'.bounded, h.pool.trans h'.pool⟩

end DataCode

/-- In the run of a loop that emits one item each round, each item has the property of its round,
if growing pools keep it. -/
theorem ok_forM_items {f : γ → Emit Unit} {R : Pool → γ → Item → Prop}
    (hmono : ∀ {pool pool' : Pool} {x i}, pool.Within pool' → R pool x i → R pool' x i) :
    ∀ {xs : List γ}, (∀ x ∈ xs, ∀ s, Ok (f x) s fun _ code s' =>
      s.pool.Within s'.pool ∧ ∃ i, code = [i] ∧ R s'.pool x i) → ∀ s,
    Ok (xs.forM f) s fun _ code s' => s.pool.Within s'.pool ∧ List.Forall₂ (R s'.pool) xs code
  | [], _, s => (ok_pure ()).2 ⟨.refl _, .nil⟩
  | x :: xs, h, s => by
    obtain ⟨hx, hxs⟩ := List.forall_mem_cons.1 h
    show Ok (f x >>= fun _ => xs.forM f) s _
    rw [ok_bind]
    refine (hx s).mono fun _ code s₁ hfirst => ?_
    obtain ⟨hwithin, i, rfl, hi⟩ := hfirst
    refine (ok_forM_items (R := R) hmono hxs s₁).mono fun _ more s₂ hrest => ?_
    exact ⟨hwithin.trans hrest.1, .cons (hmono hrest.1 hi) hrest.2⟩

end Emit

section

variable {α β : Type} {R : α → β → Prop} {xs : List α} {ys : List β}

theorem partner_of_getElem? (h : List.Forall₂ R xs ys) {k : Nat} {x : α} (hx : xs[k]? = some x) :
    ∃ y, ys[k]? = some y ∧ R x y := by
  obtain ⟨hk, rfl⟩ := List.getElem?_eq_some_iff.1 hx
  have hk' : k < ys.length := h.length_eq ▸ hk
  exact ⟨ys[k], List.getElem?_eq_getElem hk', h.get hk hk'⟩

theorem partner_of_mem (h : List.Forall₂ R xs ys) {y : β} (hy : y ∈ ys) : ∃ x, R x y := by
  obtain ⟨k, hk, rfl⟩ := List.mem_iff_getElem.1 hy
  have hk' : k < xs.length := h.length_eq ▸ hk
  exact ⟨xs[k], h.get hk' hk⟩

end

/-! ### Prototypes -/

/-- The words of a prototype behind its label. -/
structure Prototype (pool : Pool) (l : ClassLayout) (body : List Item) : Prop where
  words : ∀ i ∈ body, i.isWord = true
  size : ∃ n c, body[1]? = some (.word n c) ∧ BitVec.ofInt 32 n = .ofNat 32 body.length
  dispatch : ∃ c, body[2]? = some (.wordAddress l.dispatchLabel c)
  attrs : ∀ k a, l.attrs[k]? = some a → ∃ i, body[headerWords + k]? = some i ∧
    Initial pool a.type a.value i

theorem Prototype.within {pool pool' : Pool} {l : ClassLayout} {body : List Item}
    (h : Prototype pool l body) (hpool : pool.Within pool') : Prototype pool' l body := by
  refine ⟨h.words, h.size, h.dispatch, fun k a ha => ?_⟩
  obtain ⟨i, hi, hinitial⟩ := h.attrs k a ha
  exact ⟨i, hi, hinitial.within hpool⟩

variable {globals : Scope} {p : Program} {layouts : List ClassLayout}

namespace Program.Accepted

/-- Every attribute of a layout is declared in a class with a value for its type. -/
theorem attr_suits (hp : p.Accepted globals) (ht : globals.hierarchy.Tree)
    (h : p.layouts globals = .ok layouts) {l : ClassLayout} (hl : l ∈ layouts) :
    ∀ a ∈ l.attrs, a.value.Suits a.type := by
  refine hp.layout_induction h (motive := fun l => ∀ a ∈ l.attrs, a.value.Suits a.type) ?_ ?_ hl
  · intro l hl a ha
    rw [(ClassLayout.builtins_bare l hl).1] at ha
    cases ha
  · intro c super l tag hc hsuper hl hname hext ih a ha
    rw [hext.attrs] at ha
    rcases List.mem_append.1 ha with ha | ha
    · exact ih a ha
    · obtain ⟨d, hd, rfl⟩ := ClassLayout.mem_memberAttrs.1 ha
      have htyped : d.Typed globals.hierarchy (c.scope globals.entries.value?).entries :=
        hp.typed.1 _ hc _ (hp.declared.cls c hc).1 _ hd
      have hvalue : (c.scope globals.entries.value?).entries.value? d.name = some d.ty :=
        Bindings.value?_eq_some_iff.2 ((ClassLayout.member_get? hp.declared hc).2 (.inr ⟨_, hd, rfl⟩))
      exact Lit.suits_of_isCompatible ht (htyped.2 _ hvalue)

/-- No attribute of a layout stands in two places. -/
theorem attrNames_nodup (hp : p.Accepted globals) (hover : p.Overrides globals)
    (h : p.layouts globals = .ok layouts) {l : ClassLayout} (hl : l ∈ layouts) :
    l.attrNames.Nodup := by
  refine hp.layout_induction h (motive := fun l => l.attrNames.Nodup) ?_ ?_ hl
  · intro l hl
    rw [ClassLayout.attrNames, (ClassLayout.builtins_bare l hl).1]
    exact List.nodup_nil
  · intro c super l tag hc hsuper hl hname hext ih
    have hown : ((c.members.filterMap ClassLayout.memberAttr?).map Attribute.name).Nodup := by
      refine Declarations.nodup_filterMap_name ClassLayout.memberAttr? Attribute.name ?_
        (hp.declared.cls c hc).2.nodup
      intro m a ha
      cases m with
      | attr d =>
        cases ha
        rfl
      | method f => cases ha
    rw [ClassLayout.attrNames, hext.attrs, List.map_append, List.nodup_append]
    refine ⟨ih, hown, ?_⟩
    rintro x hx y hy rfl
    obtain ⟨a, ha, rfl⟩ := List.mem_map.1 hy
    obtain ⟨d, hd, rfl⟩ := ClassLayout.mem_memberAttrs.1 ha
    obtain ⟨t, ht⟩ := (hp.mem_attrNames hover h hsuper _).1 hx
    have hnew : globals.member? c.super.name d.name = none := hover c hc _ hd
    rw [hname, hnew] at ht
    cases ht

/-- An attribute is at the word behind the header that belongs to it. -/
theorem attrOffset_of_getElem? (hp : p.Accepted globals) (hover : p.Overrides globals)
    (h : p.layouts globals = .ok layouts) {l : ClassLayout} (hl : l ∈ layouts) {k : Nat}
    {a : Attribute} (ha : l.attrs[k]? = some a) :
    l.attrOffset a.name = .ok (wordSize * (headerWords + k) : Nat) := by
  obtain ⟨hk, rfl⟩ := List.getElem?_eq_some_iff.1 ha
  have hlen : k < l.attrNames.length := by
    rw [ClassLayout.attrNames, List.length_map]
    exact hk
  have hget : l.attrNames[k] = l.attrs[k].name := List.getElem_map _
  refine ClassLayout.attrOffset_eq.2 ⟨k, ?_, by push_cast; rfl⟩
  rw [List.findIdx?_eq_some_iff_getElem]
  refine ⟨hlen, by rw [hget, beq_self_eq_true], fun j hj => ?_⟩
  rw [beq_iff_eq, ← hget]
  intro heq
  exact absurd ((hp.attrNames_nodup hover h hl).getElem_inj_iff.1 heq) (Nat.ne_of_lt hj)

end Program.Accepted

namespace Codegen

theorem emitPrototype_data (hp : p.Accepted globals) (ht : globals.hierarchy.Tree)
    (h : p.layouts globals = .ok layouts) {l : ClassLayout} (hl : l ∈ layouts) (s : EmitState) :
    Ok (emitPrototype l) s fun _ code s' => s.pool.Within s'.pool ∧ ∃ body,
      code = .align 2 :: .globalLabel l.prototypeLabel :: body ∧ Prototype s'.pool l body := by
  have hbuiltin (b : ClassLayout) (hb : b ∈ ClassLayout.builtins) (hname : l.name = b.name) :
      l.attrs = [] := by
    rw [hp.layout_unique h hl ((hp.layouts_extend h).1.subset hb) hname]
    exact (ClassLayout.builtins_bare b hb).1
  -- the prototypes of `int`, `bool` and `str` have words for a value instead of attributes
  have hspecial (n : Int) (fields : List Item) (hattrs : l.attrs = [])
      (hwords : ∀ i ∈ fields, i.isWord = true)
      (hn : BitVec.ofInt 32 n = .ofNat 32 (headerWords + fields.length)) :
      Ok (items (prototypeHead l n ++ fields)) s fun _ code s' => s.pool.Within s'.pool ∧ ∃ body,
        code = .align 2 :: .globalLabel l.prototypeLabel :: body ∧ Prototype s'.pool l body := by
    rw [ok_items]
    refine ⟨.refl _, _, rfl, ?_, ⟨n, _, rfl, ?_⟩, ⟨_, rfl⟩, fun k a ha => ?_⟩
    · simpa [Item.isWord] using hwords
    · rw [hn]
      exact congrArg (BitVec.ofNat 32) (Nat.add_comm headerWords fields.length)
    · rw [hattrs] at ha
      cases ha
  unfold emitPrototype
  split_ifs with hscalar hstr
  · rw [Bool.or_eq_true, decide_eq_true_eq, decide_eq_true_eq] at hscalar
    have hattrs : l.attrs = [] := by
      rcases hscalar with hname | hname
      · exact hbuiltin .int (by decide) hname
      · exact hbuiltin .bool (by decide) hname
    exact hspecial _ _ hattrs (by decide) (by decide)
  · exact hspecial _ _ (hbuiltin .str (by decide) hstr) (by decide) (by decide)
  · rw [ok_bind, ok_items]
    have hloop := ok_forM_items (R := fun pool (a : Attribute) i => Initial pool a.type a.value i)
      (fun hpool hi => Initial.within hi hpool)
      (fun a ha => literalWord_initial (hp.attr_suits ht h hl a ha) (txt "attribute " ++ a.name)) s
    refine hloop.mono fun _ fields s' hfields => ?_
    obtain ⟨hwithin, hfields⟩ := hfields
    refine ⟨hwithin, _, rfl, ?_, ⟨_, _, rfl, ?_⟩, ⟨_, rfl⟩, fun k a ha => ?_⟩
    · have hword (i : Item) (hi : i ∈ fields) : i.isWord = true := by
        obtain ⟨a, ha⟩ := partner_of_mem hfields hi
        exact ha.isWord
      simpa [Item.isWord] using hword
    · rw [ofInt_int32, hfields.length_eq]
      exact congrArg (BitVec.ofNat 32) (Nat.add_comm headerWords fields.length)
    · obtain ⟨i, hi, hinitial⟩ := partner_of_getElem? hfields ha
      refine ⟨i, ?_, hinitial⟩
      rw [Nat.add_comm]
      exact hi

/-! ### The rest of the data -/

theorem emitPrototypes_data (hp : p.Accepted globals) (ht : globals.hierarchy.Tree)
    (h : p.layouts globals = .ok layouts) : ∀ {ls : List ClassLayout}, (∀ l ∈ ls, l ∈ layouts) →
      ∀ s, Ok (ls.forM emitPrototype) s fun _ code s' => DataCode s code s' ∧
        ∀ l ∈ ls, ∃ body, HasObject code l.prototypeLabel body ∧ Prototype s'.pool l body
  | [], _, s => (ok_pure ()).2 ⟨.of_items (by simp) (by simp [Bounded]), by simp⟩
  | l :: ls, hls, s => by
    obtain ⟨hl, hrest⟩ := List.forall_mem_cons.1 hls
    show Ok (emitPrototype l >>= fun _ => ls.forM emitPrototype) s _
    rw [ok_bind]
    refine (emitPrototype_data hp ht h hl s).mono fun _ code s₁ hcode => ?_
    obtain ⟨hwithin, body, rfl, hbody⟩ := hcode
    refine (emitPrototypes_data hp ht h hrest s₁).mono fun _ more s₂ hmore => ?_
    obtain ⟨hdata, hobjects⟩ := hmore
    have hobject : HasObject (.align 2 :: .globalLabel l.prototypeLabel :: body)
        l.prototypeLabel body :=
      .self fun i hi => Item.isBoundary_of_isWord (hbody.words i hi)
    have hown : DataCode s (.align 2 :: .globalLabel l.prototypeLabel :: body) s₁ := by
      refine ⟨?_, fun i hi => Option.some.inj hi ▸ rfl, hwithin⟩
      simpa [Item.isData] using fun i hi => Item.isData_of_isWord (hbody.words i hi)
    refine ⟨hown.append hdata, List.forall_mem_cons.2 ⟨⟨body, hobject.append_right hdata.bounded,
      hbody.within hdata.pool⟩, fun l' hl' => ?_⟩⟩
    obtain ⟨body', hobject', hbody'⟩ := hobjects l' hl'
    exact ⟨body', hobject'.append_left _, hbody'⟩

theorem emitGlobals_data (hp : p.Accepted globals) (ht : globals.hierarchy.Tree) :
    ∀ {ds : List TopDecl}, (∀ d ∈ ds, d ∈ p.decls) → ∀ s,
      Ok (emitGlobals globals ds) s fun _ code s' => DataCode s code s'
  | [], _, s => (ok_pure ()).2 (.of_items (by simp) (by simp [Bounded]))
  | .var d :: ds, hds, s => by
    obtain ⟨hd, hrest⟩ := List.forall_mem_cons.1 hds
    have hvalue : globals.entries.value? d.name = some d.ty :=
      hp.declared.value?_iff.2 ⟨d, hd, rfl, rfl⟩
    have htyped : d.Typed globals.hierarchy globals.entries := hp.typed.1 _ hd
    unfold emitGlobals
    simp only [ok_bind, ok_need, ok_items]
    refine ⟨d.ty, hvalue, ?_⟩
    refine (literalWord_initial (Lit.suits_of_isCompatible ht (htyped.2 _ hvalue)) _ s).mono
      fun _ code s₁ hcode => ?_
    obtain ⟨hwithin, i, rfl, hi⟩ := hcode
    refine (emitGlobals_data hp ht hrest s₁).mono fun _ more s₂ hmore => ?_
    have hown : DataCode s [.globalLabel (globalLabel d.name), i] s₁ := by
      refine ⟨?_, fun i hi => Option.some.inj hi ▸ rfl, hwithin⟩
      simpa [Item.isData] using Item.isData_of_isWord hi.isWord
    exact hown.append hmore
  | .func _ :: ds, hds, s | .cls _ :: ds, hds, s =>
    emitGlobals_data hp ht (List.forall_mem_cons.1 hds).2 s

theorem mem_dispatchTables {l : ClassLayout} (hl : l ∈ layouts) :
    l.dispatchLabel ∈ defined (layouts.flatMap dispatchTable) :=
  List.mem_filterMap.2 ⟨_, List.mem_flatMap.2 ⟨l, hl, List.mem_cons_self⟩, rfl⟩

theorem dispatchTables_data (s : EmitState) :
    DataCode s (layouts.flatMap dispatchTable) s := by
  refine .of_items (fun i hi => ?_) (.flatMap fun l _ i hi => Option.some.inj hi ▸ rfl)
  obtain ⟨l, -, hi⟩ := List.mem_flatMap.1 hi
  rcases List.mem_cons.1 hi with rfl | hi
  · rfl
  · obtain ⟨m, -, rfl⟩ := List.mem_map.1 hi
    rfl

/-- The data of a program but for the constants. -/
def emitData (globals : Scope) (layouts : List ClassLayout) (p : Program) : Emit Unit := do
  layouts.forM emitPrototype
  Emit.items listPrototype
  Emit.items (layouts.flatMap dispatchTable)
  emitGlobals globals p.decls

theorem emitData_data (hp : p.Accepted globals) (ht : globals.hierarchy.Tree)
    (h : p.layouts globals = .ok layouts) (s : EmitState) :
    Ok (emitData globals layouts p) s fun _ code s' => DataCode s code s' ∧
      (∀ l ∈ layouts, ∃ body, HasObject code l.prototypeLabel body ∧ Prototype s'.pool l body) ∧
      HasObject code (txt "$.list$prototype") (listPrototype.drop 2) ∧
      ∀ l ∈ layouts, l.dispatchLabel ∈ defined code := by
  simp only [emitData, ok_bind, ok_items]
  refine (emitPrototypes_data hp ht h (fun l hl => hl) s).mono fun _ code s₁ hcode => ?_
  refine (emitGlobals_data hp ht (fun d hd => hd) s₁).mono fun _ more s₂ hmore => ?_
  obtain ⟨hdata, hobjects⟩ := hcode
  have hlist : DataCode s₁ listPrototype s₁ :=
    .of_items (by decide) fun i hi => Option.some.inj hi ▸ rfl
  have htables : DataCode s₁ (layouts.flatMap dispatchTable) s₁ := dispatchTables_data s₁
  have hrest := htables.append hmore
  refine ⟨hdata.append (hlist.append hrest), fun l hl => ?_, ?_, fun l hl => ?_⟩
  · obtain ⟨body, hobject, hbody⟩ := hobjects l hl
    exact ⟨body, hobject.append_right (hlist.append hrest).bounded, hbody.within hrest.pool⟩
  · have hobject : HasObject listPrototype (txt "$.list$prototype") (listPrototype.drop 2) :=
      .self (by decide)
    exact (hobject.append_right hrest.bounded).append_left _
  · simp [defined_append, mem_dispatchTables hl]

end Codegen

/-! ### Constants -/

namespace Asm.Pool

variable {h : Headers}

/-- The words of a boxed constant behind its label. -/
def boxedBody (h : Header) (value : Int) (comment : Bytes) : List Item :=
  [.word h.tag (txt "type tag"), .word (headerWords + 1 : Nat) (txt "object size"),
   .wordAddress h.dispatch (txt "pointer to dispatch table"), .word value comment]

/-- The items of a string constant behind its label. -/
def strBody (h : Header) (value : Bytes) : List Item :=
  [.word h.tag (txt "type tag for str"),
   .word (int32 (strSizeWords value.length)) (txt "object size"),
   .wordAddress h.dispatch (txt "pointer to dispatch table"),
   .word (int32 value.length) (txt "string length"), .string value (txt "string value")]

theorem scalarItems_object (h : Header) (l : Label) (value : Int) (comment : Bytes) :
    HasObject (scalarItems h l value comment) l (boxedBody h value comment) :=
  .self (by simp [Item.isBoundary])

theorem strItems_object (h : Header) (l : Label) (value : Bytes) :
    HasObject (strItems h l value) l (strBody h value) :=
  .self (by simp [Item.isBoundary])

theorem scalarItems_bounded (h : Header) (l : Label) (value : Int) (comment : Bytes) :
    Bounded (scalarItems h l value comment) :=
  fun _ hi => Option.some.inj hi ▸ rfl

theorem strItems_bounded (h : Header) (l : Label) (value : Bytes) : Bounded (strItems h l value) :=
  fun _ hi => Option.some.inj hi ▸ rfl

theorem ints_bounded (pool : Pool) (h : Headers) : Bounded (pool.ints.flatMap fun e =>
    scalarItems h.int (label e.2) e.1 (txt "int " ++ signed e.1)) :=
  .flatMap fun _ _ => scalarItems_bounded _ _ _ _

theorem strs_bounded (pool : Pool) (h : Headers) :
    Bounded (pool.strs.flatMap fun e => strItems h.str (label e.2) e.1) :=
  .flatMap fun _ _ => strItems_bounded _ _ _

theorem items_object_bool (pool : Pool) (h : Headers) (b : Bool) : ∃ comment,
    HasObject (pool.items h) (boolLabel b) (boxedBody h.bool (boolWord b) comment) := by
  have hrest := (pool.ints_bounded h).append (pool.strs_bounded h)
  rw [Pool.items, List.append_assoc]
  cases b with
  | false =>
    refine ⟨_, ((scalarItems_object ..).append_right ?_).append_right hrest⟩
    exact scalarItems_bounded _ _ _ _
  | true => exact ⟨_, ((scalarItems_object ..).append_left _).append_right hrest⟩

theorem items_object_int {pool : Pool} {value : Int} {k : Nat} (hk : (value, k) ∈ pool.ints)
    (h : Headers) : HasObject (pool.items h) (label k)
      (boxedBody h.int value (txt "int " ++ signed value)) := by
  refine ((HasObject.flatMap ?_ hk (scalarItems_object ..)).append_left _).append_right
    (pool.strs_bounded h)
  exact fun _ _ => scalarItems_bounded _ _ _ _

theorem items_object_str {pool : Pool} {value : Bytes} {k : Nat} (hk : (value, k) ∈ pool.strs)
    (h : Headers) : HasObject (pool.items h) (label k) (strBody h.str value) := by
  refine (HasObject.flatMap ?_ hk (strItems_object ..)).append_left _
  exact fun _ _ => strItems_bounded _ _ _

theorem items_data (pool : Pool) (h : Headers) (s : EmitState) :
    Emit.DataCode s (pool.items h) s := by
  have hscalar (h : Header) (l : Label) (value : Int) (comment : Bytes) :
      ∀ i ∈ scalarItems h l value comment, i.isData = true := by
    simp [scalarItems, Item.isData]
  have hstr (h : Header) (l : Label) (value : Bytes) : ∀ i ∈ strItems h l value, i.isData = true := by
    simp [strItems, Item.isData]
  refine .of_items (fun i hi => ?_) fun i hi => Option.some.inj hi ▸ rfl
  rcases mem_items hi with ⟨_, _, _, hi, -⟩ | ⟨_, -, hi⟩ | ⟨_, -, hi⟩
  · exact hscalar _ _ _ _ i hi
  · exact hscalar _ _ _ _ i hi
  · exact hstr _ _ _ i hi

end Asm.Pool

/-! ### The whole listing -/

namespace Codegen

/-- The text of a program. -/
def emitText (globals : Scope) (layouts : List ClassLayout) (p : Program) : Emit Unit := do
  Emit.items [.section_ .text]
  emitMain ⟨globals, layouts, p.mainFrame, [], .noneType, []⟩ p.body
  p.frames.forM (emitFunction globals layouts)
  emitHelpers

theorem emitUnits_eq (globals : Scope) (layouts : List ClassLayout) (p : Program) :
    emitUnits globals layouts p = emitText globals layouts p >>= fun _ =>
      Emit.items [.section_ .data] >>= fun _ => emitData globals layouts p := by
  simp only [emitUnits, emitText, emitData, bind_assoc]

end Codegen

/-- The listing of a program is a text and data with the constants at the end. -/
theorem Program.Accepted.items_split (hp : p.Accepted globals) (ht : globals.hierarchy.Tree)
    (h : p.layouts globals = .ok layouts) : ∃ text data s,
      emitProgram globals layouts p {} =
        .ok ((), text ++ .section_ .data :: (data ++ s.pool.items headers), s) ∧
      (∀ i ∈ data ++ s.pool.items headers, i.isData = true) ∧
      (∀ l ∈ layouts, ∃ body, HasObject (data ++ s.pool.items headers) l.prototypeLabel body ∧
        Prototype s.pool l body) ∧
      HasObject (data ++ s.pool.items headers) (txt "$.list$prototype") (listPrototype.drop 2) ∧
      ∀ l ∈ layouts, l.dispatchLabel ∈ defined (data ++ s.pool.items headers) := by
  have hunits := emitUnits_emits hp h {}
  rw [emitUnits_eq, ok_bind] at hunits
  obtain ⟨_, text, s, htext, -⟩ := hunits
  obtain ⟨_, data, s', hdata, hcode, hprototypes, hlist, hdispatch⟩ := emitData_data hp ht h s
  have hconstants := s'.pool.items_data headers s'
  refine ⟨text, data, s', ?_, (hcode.append hconstants).data, fun l hl => ?_,
    hlist.append_right hconstants.bounded, fun l hl => ?_⟩
  · rw [emitProgram_eq, emitUnits_eq]
    refine bind_ok.2 ⟨(), text ++ ([.section_ .data] ++ data), s', s'.pool.items headers, ?_, rfl,
      by simp⟩
    exact bind_ok.2 ⟨(), text, s, _, htext, bind_ok.2 ⟨(), _, s, data, rfl, hdata, rfl⟩, rfl⟩
  · obtain ⟨body, hobject, hbody⟩ := hprototypes l hl
    exact ⟨body, hobject.append_right hconstants.bounded, hbody⟩
  · rw [defined_append]
    exact List.mem_append_left _ (hdispatch l hl)

end ChocoRv
