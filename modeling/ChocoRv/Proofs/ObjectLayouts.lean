import ChocoRv.Proofs.DataSection

/-!
# Objects in the data

What readers of objects rely on, in the bytes of the assembled data: headers with the size and the
dispatch table, attributes at their offsets, strings with their length in front, and the two bools
side by side. The data of every accepted program are laid out that way, wherever they are placed.
-/

namespace ChocoRv

open Asm Codegen Emit Rv32

namespace Asm.Segment

/-! ### Objects by their bytes -/

/-- At the label there is an object with the dispatch table of the class. -/
def OfClass (s : Segment) (c : ClassLayout) (l : Label) (a : Nat) : Prop :=
  ∃ d, s.address? c.dispatchLabel = some d ∧ s.Object l a (.ofNat 32 d)

/-- A boxed number of the class. -/
structure Boxed (s : Segment) (c : ClassLayout) (l : Label) (a : Nat) (n : Int) : Prop where
  object : s.OfClass c l a
  value : s.word? (a + 12) = some (.ofInt 32 n)

theorem Boxed.address {s : Segment} {c : ClassLayout} {l : Label} {a : Nat} {n : Int}
    (h : s.Boxed c l a n) : s.address? l = some a := by
  obtain ⟨_, _, hobj⟩ := h.object
  exact hobj.address

/-- A string object: its length and then its bytes up to a NUL. -/
structure HoldsStr (s : Segment) (l : Label) (a : Nat) (v : Bytes) : Prop where
  object : s.OfClass .str l a
  length : s.word? (a + 12) = some (.ofNat 32 v.length)
  text : v ++ [0] <+: s.bytesFrom (a + 16)

theorem HoldsStr.address {s : Segment} {l : Label} {a : Nat} {v : Bytes}
    (h : s.HoldsStr l a v) : s.address? l = some a := by
  obtain ⟨_, _, hobj⟩ := h.object
  exact hobj.address

/-- The word represents the value in a place of the type: raw where the place is for raw words, and
else by the address of an object. -/
inductive Represents (s : Segment) : Ty → Lit → Word → Prop
  | int (n : Int) : Represents s .int (.int n) (.ofInt 32 n)
  | bool (b : Bool) : Represents s .bool (.bool b) (.ofInt 32 (boolWord b))
  | boxedInt {t : Ty} {n : Int} {l : Label} {a : Nat} (ht : t.isUnboxed = false)
      (h : s.Boxed .int l a n) : Represents s t (.int n) (.ofNat 32 a)
  | boxedBool {t : Ty} {b : Bool} {l : Label} {a : Nat} (ht : t.isUnboxed = false)
      (h : s.Boxed .bool l a (boolWord b)) : Represents s t (.bool b) (.ofNat 32 a)
  | str {t : Ty} {v : Bytes} {l : Label} {a : Nat} (ht : t.isUnboxed = false)
      (h : s.HoldsStr l a v) : Represents s t (.str v) (.ofNat 32 a)
  | none {t : Ty} (ht : t.isUnboxed = false) : Represents s t .none 0

/-- The objects of the constants. -/
structure Constants (s : Segment) (pool : Pool) : Prop where
  int : ∀ n k, (n, k) ∈ pool.ints → ∃ a, s.Boxed .int (Pool.label k) a n
  str : ∀ v k, (v, k) ∈ pool.strs → ∃ a, s.HoldsStr (Pool.label k) a v
  bool : ∀ b, ∃ a, s.Boxed .bool (Pool.boolLabel b) a (boolWord b)
  /-- `True` is four words behind `False`. -/
  bools : ∃ a, s.address? (Pool.boolLabel false) = some a ∧
    s.address? (Pool.boolLabel true) = some (a + 16)
  /-- A shift by four makes a bool an index from `False` on. -/
  shifted : ∀ b, s.symbols (Pool.boolLabel b) =
    BitVec.ofInt 32 (boolWord b) <<< 4 + s.symbols (Pool.boolLabel false)

/-- The prototype of a class: each attribute is at its offset with its initial value. -/
def Prototypical (s : Segment) (c : ClassLayout) : Prop :=
  ∃ a, s.OfClass c c.prototypeLabel a ∧ ∀ x ∈ c.attrs, ∃ offset : Nat,
    c.attrOffset x.name = .ok offset ∧
      ∃ w, s.word? (a + offset) = some w ∧ s.Represents x.type x.value w

/-- The word of an initial value represents it. -/
theorem Constants.represents {s : Segment} {pool : Pool} (h : s.Constants pool) {t : Ty} {v : Lit}
    {i : Item} (hi : Initial pool t v i) :
    ∃ w, i.value? s.symbols = some w ∧ s.Represents t v w := by
  cases hi with
  | int n => exact ⟨_, rfl, .int n⟩
  | bool b => exact ⟨_, rfl, .bool b⟩
  | boxedInt ht hk =>
    obtain ⟨a, ha⟩ := h.int _ _ hk
    exact ⟨_, congrArg some (symbols_eq ha.address), .boxedInt ht ha⟩
  | boxedBool ht b =>
    obtain ⟨a, ha⟩ := h.bool b
    exact ⟨_, congrArg some (symbols_eq ha.address), .boxedBool ht ha⟩
  | str ht hk =>
    obtain ⟨a, ha⟩ := h.str _ _ hk
    exact ⟨_, congrArg some (symbols_eq ha.address), .str ht ha⟩
  | none ht => exact ⟨_, rfl, .none ht⟩

/-- The data are laid out as their readers expect. -/
structure LaidOut (s : Segment) (layouts : List ClassLayout) (pool : Pool) : Prop where
  prototype : ∀ c ∈ layouts, s.Prototypical c
  list : ∃ a, s.Object (txt "$.list$prototype") a 0
  constants : s.Constants pool

/-! ### Objects by their items -/

section

variable {s : Segment} {l : Label} (hbase : s.base % wordSize = 0) (hnd : (defined s.items).Nodup)

include hbase hnd

theorem boxed_of_body {c : ClassLayout} {h : Header} {n : Int} {comment : Bytes}
    (hdispatch : h.dispatch = c.dispatchLabel) (htable : c.dispatchLabel ∈ defined s.items)
    (hobject : HasObject s.items l (Pool.boxedBody h n comment)) : ∃ a, s.Boxed c l a n := by
  obtain ⟨d, hd⟩ := address?_isSome htable
  have hwords : ∀ i ∈ (Pool.boxedBody h n comment).take 4, i.isWord = true := by
    simp [Pool.boxedBody, Item.isWord]
  have hthird : (Item.wordAddress h.dispatch (txt "pointer to dispatch table")).value? s.symbols =
      some (.ofNat 32 d) := by
    rw [hdispatch, ← symbols_eq hd]
    rfl
  have hsize : BitVec.ofInt 32 (headerWords + 1 : Nat) =
      .ofNat 32 ((span 0 (Pool.boxedBody h n comment) + 3) / wordSize) := by
    have hspan : span 0 (Pool.boxedBody h n comment) = 16 := rfl
    rw [hspan, BitVec.ofInt_natCast]
    rfl
  obtain ⟨a, -, -, hobj, hfield, -⟩ := object_of_body hbase hnd hobject hwords (by decide) le_rfl
    rfl hsize rfl hthird
  exact ⟨a, ⟨d, hd, hobj⟩, hfield 3 _ _ (by decide) rfl rfl⟩

theorem holdsStr_of_body {h : Header} {v : Bytes}
    (hdispatch : h.dispatch = ClassLayout.str.dispatchLabel)
    (htable : ClassLayout.str.dispatchLabel ∈ defined s.items)
    (hobject : HasObject s.items l (Pool.strBody h v)) : ∃ a, s.HoldsStr l a v := by
  obtain ⟨d, hd⟩ := address?_isSome htable
  have hwords : ∀ i ∈ (Pool.strBody h v).take 4, i.isWord = true := by
    simp [Pool.strBody, Item.isWord]
  have hthird : (Item.wordAddress h.dispatch (txt "pointer to dispatch table")).value? s.symbols =
      some (.ofNat 32 d) := by
    rw [hdispatch, ← symbols_eq hd]
    rfl
  -- four words and the bytes with their NUL, in whole words
  have hsize : BitVec.ofInt 32 (int32 (strSizeWords v.length)) =
      .ofNat 32 ((span 0 (Pool.strBody h v) + 3) / wordSize) := by
    have hspan : span 0 (Pool.strBody h v) = 16 + (v.length + 1) := rfl
    have hcast : strSizeWords v.length = ((4 + (v.length + 4) / 4 : Nat) : Int) := by
      rw [strSizeWords, Int.tdiv_eq_ediv_of_nonneg (by omega)]
      push_cast
      rfl
    have hwhole : (16 + (v.length + 1) + 3) / 4 = 4 + (v.length + 4) / 4 := by omega
    rw [ofInt_int32, hcast, BitVec.ofInt_natCast, hspan]
    exact congrArg _ hwhole.symm
  obtain ⟨a, offset, rest, hobj, hfield, htext⟩ := object_of_body hbase hnd hobject hwords
    (by decide) (by decide : 4 ≤ 5) rfl hsize rfl hthird
  refine ⟨a, ⟨d, hd, hobj⟩, ?_, ?_⟩
  · rw [← BitVec.ofInt_natCast, ← ofInt_int32]
    exact hfield 3 _ _ (by decide) rfl rfl
  · refine ⟨rest, ?_⟩
    have hbytes : encode s.symbols offset ((Pool.strBody h v).drop 4) = v ++ [0] :=
      List.append_nil _
    rw [← hbytes]
    exact htext.symm

theorem constants_of_suffix {pool : Pool} (hsuffix : pool.items headers <:+ s.items)
    (htable : ∀ b ∈ ClassLayout.builtins, b.dispatchLabel ∈ defined s.items) :
    s.Constants pool := by
  obtain ⟨before, hitems⟩ := hsuffix
  have hobject {l : Label} {body : List Item} (h : HasObject (pool.items headers) l body) :
      HasObject s.items l body := hitems ▸ h.append_left before
  have hbools : ∃ a, s.address? (Pool.boolLabel false) = some a ∧
      s.address? (Pool.boolLabel true) = some (a + 16) := by
    obtain ⟨after, hafter⟩ : ∃ after, pool.items headers =
        .align 2 :: .globalLabel (Pool.boolLabel false) ::
          (Pool.boxedBody headers.bool 0 (txt "False") ++
            .align 2 :: .globalLabel (Pool.boolLabel true) :: after) := by
      rw [Pool.items, List.append_assoc, List.append_assoc]
      exact ⟨_, rfl⟩
    rw [hafter] at hitems
    exact address?_next hnd hitems.symm (by simp [Pool.boxedBody, Item.isWord])
  refine ⟨fun n k hk => ?_, fun v k hk => ?_, fun b => ?_, hbools, fun b => ?_⟩
  · exact boxed_of_body hbase hnd rfl (htable .int (by decide))
      (hobject (Pool.items_object_int hk headers))
  · exact holdsStr_of_body hbase hnd rfl (htable .str (by decide))
      (hobject (Pool.items_object_str hk headers))
  · obtain ⟨comment, h⟩ := pool.items_object_bool headers b
    exact boxed_of_body hbase hnd rfl (htable .bool (by decide)) (hobject h)
  · obtain ⟨a, hfalse, htrue⟩ := hbools
    cases b with
    | false => exact (BitVec.zero_add _).symm
    | true =>
      rw [symbols_eq htrue, symbols_eq hfalse, BitVec.ofNat_add, BitVec.add_comm]
      rfl

theorem prototypical_of_body {pool : Pool} {c : ClassLayout} {body : List Item}
    (hconstants : s.Constants pool) (htable : c.dispatchLabel ∈ defined s.items)
    (hobject : HasObject s.items c.prototypeLabel body) (hbody : Prototype pool c body)
    (hoffset : ∀ k x, c.attrs[k]? = some x →
      c.attrOffset x.name = .ok (wordSize * (headerWords + k) : Nat)) : s.Prototypical c := by
  obtain ⟨d, hd⟩ := address?_isSome htable
  obtain ⟨n, _, hsize, hn⟩ := hbody.size
  obtain ⟨_, hdispatch⟩ := hbody.dispatch
  have hlen : headerWords ≤ body.length := (List.getElem?_eq_some_iff.1 hdispatch).1
  have hwords : ∀ i ∈ body.take body.length, i.isWord = true := by
    rw [List.take_length]
    exact hbody.words
  have hspan : (span 0 body + 3) / wordSize = body.length := by
    rw [span_words hbody.words]
    show (0 + 4 * body.length + 3) / 4 = body.length
    omega
  obtain ⟨a, -, -, hobj, hfield, -⟩ := object_of_body hbase hnd hobject hwords hlen le_rfl hsize
    (hspan.symm ▸ hn) hdispatch (congrArg some (symbols_eq hd))
  refine ⟨a, ⟨d, hd, hobj⟩, fun x hx => ?_⟩
  obtain ⟨k, hk⟩ := List.mem_iff_getElem?.1 hx
  obtain ⟨i, hi, hinitial⟩ := hbody.attrs k x hk
  obtain ⟨w, hw, hrepresents⟩ := hconstants.represents hinitial
  refine ⟨_, hoffset k x hk, w, ?_, hrepresents⟩
  exact hfield _ i w (List.getElem?_eq_some_iff.1 hi).1 hi hw

end

end Asm.Segment

/-- The data of every accepted program are laid out as the code that reads them expects: at any
aligned base, and wherever the labels of the text are. -/
theorem data_laidOut {source : Bytes} {globals : Scope} {p : Program}
    (h : Accepts source globals p) : ∃ layouts text data s, p.layouts globals = .ok layouts ∧
      emitProgram globals layouts p {} = .ok ((), text ++ .section_ .data :: data, s) ∧
      p.items globals = .ok (text ++ .section_ .data :: data) ∧
      (∀ i ∈ data, i.isData = true) ∧ s.pool.items headers <:+ data ∧
      ∀ base outside, base % wordSize = 0 →
        (Segment.mk base data outside).LaidOut layouts s.pool := by
  have hp := h.accepted
  obtain ⟨layouts, hlayouts, -⟩ := hp.layouts
  obtain ⟨text, data, s, hprogram, hdata, hprototypes, hlist, hdispatch⟩ :=
    hp.items_split h.tree hlayouts
  have hitems : p.items globals =
      .ok (text ++ .section_ .data :: (data ++ s.pool.items headers)) := by
    rw [Program.items, hlayouts]
    show (emitProgram globals layouts p {} >>= _) = _
    rw [hprogram]
    rfl
  have hnd : (defined (data ++ s.pool.items headers)).Nodup := by
    obtain ⟨items, hitems', hcomplete⟩ := hp.items_complete
    cases hitems.symm.trans hitems'
    have hall := hcomplete.nodup
    rw [defined_append] at hall
    exact hall.of_append_right
  have hover := h.overrides
  refine ⟨layouts, text, _, s, hlayouts, hprogram, hitems, hdata, List.suffix_append _ _,
    fun base outside hbase => ?_⟩
  have hconstants : (Segment.mk base (data ++ s.pool.items headers) outside).Constants s.pool := by
    refine Segment.constants_of_suffix hbase hnd (List.suffix_append _ _) fun b hb => ?_
    exact hdispatch b ((hp.layouts_extend hlayouts).1.subset hb)
  refine ⟨fun c hc => ?_, ?_, hconstants⟩
  · obtain ⟨body, hobject, hbody⟩ := hprototypes c hc
    exact Segment.prototypical_of_body hbase hnd hconstants (hdispatch c hc) hobject hbody
      fun k x hx => hp.attrOffset_of_getElem? hover hlayouts hc hx
  · have hsize : BitVec.ofInt 32 (headerWords + 1 : Nat) =
        .ofNat 32 ((span 0 (listPrototype.drop 2) + 3) / wordSize) := by decide
    obtain ⟨a, -, -, hobj, -⟩ :=
      Segment.object_of_body (s := ⟨base, data ++ s.pool.items headers, outside⟩) hbase hnd hlist
        (by decide) (by decide) (by decide : 4 ≤ 4) rfl hsize rfl rfl
    exact ⟨a, hobj⟩

/-- A number in a place for numbers and one in a place for objects. -/
def holding : Bytes := txt "class A(object):\n  x:int = 7\n  y:object = 7\n"

theorem holding_laidOut : ∃ globals p text data a w, Accepts holding globals p ∧
    p.items globals = .ok (text ++ .section_ .data :: data) ∧
    (Segment.mk 4096 data fun _ => 0).address? (txt "$A$prototype") = some a ∧
    (Segment.mk 4096 data fun _ => 0).word? (a + 12) = some 7 ∧
    (Segment.mk 4096 data fun _ => 0).word? (a + 16) = some w ∧
    (Segment.mk 4096 data fun _ => 0).Represents (.cls (txt "object")) (.int 7) w := by
  have hrun : (accepted? holding).any (fun r => (r.2.layouts r.1).toOption.any fun layouts =>
      layouts.any fun c => c.prototypeLabel = txt "$A$prototype" ∧
        c.attrs = [⟨txt "x", .int, .int 7⟩, ⟨txt "y", .cls (txt "object"), .int 7⟩] ∧
        c.attrOffset (txt "x") = .ok 12 ∧ c.attrOffset (txt "y") = .ok 16) = true := by
    decide +kernel
  obtain ⟨⟨globals, p⟩, hr, hlayouts⟩ := (Option.any_eq_true _ _).1 hrun
  obtain ⟨layouts, hlayouts, hany⟩ := ok_of_any hlayouts
  obtain ⟨c, hc, hprop⟩ := List.any_eq_true.1 hany
  obtain ⟨hlabel, hattrs, hoffset, hoffset'⟩ := of_decide_eq_true hprop
  have haccepts := accepts_of_accepted? hr
  obtain ⟨layouts', text, data, s, hlayouts', -, hitems, -, -, hlaidOut⟩ := data_laidOut haccepts
  cases hlayouts.symm.trans hlayouts'
  obtain ⟨a, ⟨_, _, hobj⟩, hfields⟩ := (hlaidOut 4096 (fun _ => 0) rfl).prototype c hc
  have haddress := hobj.address
  rw [hlabel] at haddress
  rw [hattrs] at hfields
  obtain ⟨o, ho, w, hw, hx⟩ := hfields _ List.mem_cons_self
  obtain ⟨o', ho', w', hw', hy⟩ := hfields _ (List.mem_cons_of_mem _ List.mem_cons_self)
  have heq {name : Name} {n m : Nat} (hn : c.attrOffset name = .ok n)
      (hm : c.attrOffset name = .ok m) : n = m :=
    Int.ofNat_inj.1 (Except.ok.inj (hn.symm.trans hm))
  obtain rfl := heq hoffset ho
  obtain rfl := heq hoffset' ho'
  cases hx with
  | int => exact ⟨globals, p, text, data, a, w', haccepts, hitems, haddress, hw, hw', hy⟩
  | boxedInt ht => cases ht

end ChocoRv
