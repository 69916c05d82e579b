import ChocoRv.Parser.Program

/-!
# Names and numbers of parsed programs

Every name in a parsed program is an identifier and no keyword, and every integer literal fits in
a signed word. `Parser.Keeps` carries this from the tokens to the tree: a parser that is given valid
tokens leaves valid tokens and returns a valid result.
-/

namespace ChocoRv

/-- An identifier that is no keyword. -/
structure ValidName (n : Name) : Prop where
  spelled : ∃ c cs, n = c :: cs ∧ Byte.isNameStart c = true ∧ ∀ b ∈ cs, Byte.isNamePart b = true
  free : Keyword.ofSpelling? n = none

theorem ValidName.ne_return {n : Name} (h : ValidName n) : n ≠ txt "return" := by
  rintro rfl
  exact absurd h.free (by decide)

/-! ### Valid trees -/

def Lit.Valid : Lit → Prop
  | .int v => 0 ≤ v ∧ v ≤ 2147483647
  | _ => True

mutual

/-- All names and numbers in the expression are valid. -/
@[grind =]
def Expr.Valid : Expr → Prop
  | .lit l => l.value.Valid
  | .name id => ValidName id.name
  | .unary _ _ e => e.Valid
  | .binary _ l _ r => l.Valid ∧ r.Valid
  | .cond _ test yes no => test.Valid ∧ yes.Valid ∧ no.Valid
  | .list _ elems => Expr.AllValid elems
  | .index _ seq i => seq.Valid ∧ i.Valid
  | .member _ object id => object.Valid ∧ ValidName id.name
  | .call _ id args => ValidName id.name ∧ Expr.AllValid args
  | .methodCall _ _ object id args => object.Valid ∧ ValidName id.name ∧ Expr.AllValid args

def Expr.AllValid : List Expr → Prop
  | [] => True
  | e :: es => e.Valid ∧ Expr.AllValid es

end

theorem Expr.allValid_iff {es : List Expr} : Expr.AllValid es ↔ ∀ e ∈ es, e.Valid := by
  induction es with
  | nil => simp [Expr.AllValid]
  | cons e es ih => simp [Expr.AllValid, ih]

mutual

@[grind =]
def Stmt.Valid : Stmt → Prop
  | .expr _ e => e.Valid
  | .assign _ targets value =>
    Expr.AllValid targets ∧ (∀ e ∈ targets, e.isTarget = true) ∧ value.Valid
  | .ite _ test yes no => test.Valid ∧ Stmt.AllValid yes ∧ Stmt.AllValid no
  | .loop _ test body => test.Valid ∧ Stmt.AllValid body
  | .each _ id iterable body => ValidName id.name ∧ iterable.Valid ∧ Stmt.AllValid body
  | .ret _ none => True
  | .ret _ (some e) => e.Valid

def Stmt.AllValid : List Stmt → Prop
  | [] => True
  | s :: ss => s.Valid ∧ Stmt.AllValid ss

end

theorem Stmt.allValid_iff {ss : List Stmt} : Stmt.AllValid ss ↔ ∀ s ∈ ss, s.Valid := by
  induction ss with
  | nil => simp [Stmt.AllValid]
  | cons s ss ih => simp [Stmt.AllValid, ih]

def TypedVar.Valid (v : TypedVar) : Prop := ValidName v.name.name

def VarDef.Valid (d : VarDef) : Prop := d.var.Valid ∧ d.value.value.Valid

mutual

def FuncDef.Valid : FuncDef → Prop
  | .mk _ id params _ decls body =>
    ValidName id.name ∧ (∀ p ∈ params, p.Valid) ∧ LocalDecl.AllValid decls ∧ Stmt.AllValid body

def LocalDecl.Valid : LocalDecl → Prop
  | .var d => d.Valid
  | .global _ id | .nonlocal _ id => ValidName id.name
  | .func f => f.Valid

def LocalDecl.AllValid : List LocalDecl → Prop
  | [] => True
  | d :: ds => d.Valid ∧ LocalDecl.AllValid ds

end

theorem LocalDecl.allValid_iff {ds : List LocalDecl} :
    LocalDecl.AllValid ds ↔ ∀ d ∈ ds, d.Valid := by
  induction ds with
  | nil => simp [LocalDecl.AllValid]
  | cons d ds ih => simp [LocalDecl.AllValid, ih]

def Member.Valid : Member → Prop
  | .attr d => d.Valid
  | .method f => f.Valid

def ClassDef.Valid (c : ClassDef) : Prop :=
  ValidName c.name ∧ ValidName c.super.name ∧ ∀ m ∈ c.members, m.Valid

def TopDecl.Valid : TopDecl → Prop
  | .var d => d.Valid
  | .func f => f.Valid
  | .cls c => c.Valid

def Program.Valid (p : Program) : Prop := (∀ d ∈ p.decls, d.Valid) ∧ Stmt.AllValid p.body

theorem FuncDef.Valid.name {f : FuncDef} (h : f.Valid) : ValidName f.name := by
  obtain ⟨loc, id, params, ret?, decls, body⟩ := f
  simp only [FuncDef.Valid] at h
  exact h.1

theorem LocalDecl.Valid.ident {d : LocalDecl} (h : d.Valid) : ValidName d.ident.name := by
  cases d with
  | var d => simp only [LocalDecl.Valid] at h; exact h.1
  | global _ id | «nonlocal» _ id => simp only [LocalDecl.Valid] at h; exact h
  | func f => simp only [LocalDecl.Valid] at h; exact h.name

theorem TopDecl.Valid.ident {d : TopDecl} (h : d.Valid) : ValidName d.ident.name := by
  cases d with
  | var d => exact h.1
  | func f => exact FuncDef.Valid.name h
  | cls c => exact h.1

/-! ### Valid tokens -/

def Token.Kind.Valid : Token.Kind → Prop
  | .identifier n => ValidName n
  | .integer v => v ≤ Lexer.maxInteger
  | _ => True

def Token.Valid (t : Token) : Prop := t.kind.Valid

namespace Lexer

theorem word_valid {w : Bytes} {k : Token.Kind} (h : word w = .ok k)
    (hw : ∃ c cs, w = c :: cs ∧ Byte.isNameStart c = true ∧ ∀ b ∈ cs, Byte.isNamePart b = true) :
    k.Valid := by
  unfold word at h
  split at h
  · cases h; trivial
  · split at h
    · cases h
    · cases h; exact ⟨hw, ‹_›⟩

theorem number_valid {digits after : Bytes} {k : Token.Kind} (h : number digits after = .ok k) :
    k.Valid := by
  unfold number at h
  split at h
  · cases h
  · split at h
    · cases h
    · split at h
      · cases h
      · cases h; simp only [Token.Kind.Valid]; omega

theorem symbol_valid {c : UInt8} {cs : Bytes} {k : Token.Kind} {n : Nat}
    (h : symbol c cs = .ok (k, n)) : k.Valid := by
  unfold symbol at h
  split at h
  · cases h; trivial
  · split at h <;> cases h; trivial

theorem lexeme_valid {c : UInt8} {cs : Bytes} {k : Token.Kind} {n : Nat}
    (h : lexeme c cs = .ok (k, n)) : k.Valid := by
  unfold lexeme at h
  split at h
  · split at h <;> cases h; trivial
  · split at h
    · simp only [Except.map] at h
      split at h <;> cases h
      exact number_valid ‹_›
    · split at h
      · rename_i hc
        simp only [Except.map] at h
        split at h <;> cases h
        refine word_valid ‹_› ⟨c, _, rfl, hc, fun b hb => ?_⟩
        exact (List.all_eq_true.1 (List.all_takeWhile (l := cs))) b hb
      · exact symbol_valid h

/-- What holds of all kinds that a lexeme is read as and of the marks of lines and blocks. -/
structure Reads (P : Token.Kind → Prop) : Prop where
  lexeme : ∀ {c : UInt8} {cs : Bytes} {k : Token.Kind} {n : Nat}, lexeme c cs = .ok (k, n) → P k
  newline : P .newline
  indent : P .indent
  dedent : P .dedent
  eof : P .eof

theorem reads_valid : Reads Token.Kind.Valid := ⟨lexeme_valid, trivial, trivial, trivial, trivial⟩

variable {P : Token.Kind → Prop}

theorem Reads.lexemes (hP : Reads P) {line col : Nat} {s : Bytes} {ts : List Token}
    (h : lexemes line col s = .ok ts) : ∀ t ∈ ts, P t.kind := by
  fun_induction Lexer.lexemes line col s generalizing ts with
  | case1 col => cases h; simp
  | case2 col c cs hc ih => exact ih h
  | case3 col cs => cases h; simp
  | case4 => cases h
  | case5 col c cs hc hash kind n hlex ih =>
    simp only [Except.map] at h
    split at h
    · cases h
    · rename_i rest hrest
      cases h
      intro t ht
      rcases List.mem_cons.1 ht with rfl | ht
      · exact hP.lexeme hlex
      · exact ih hrest t ht

theorem Reads.reindent (hP : Reads P) {stack : List Nat} {width : Nat} {marks : List Token.Kind}
    {stack' : List Nat} (h : reindent stack width = some (marks, stack')) :
    ∀ k ∈ marks, P k := by
  unfold Lexer.reindent at h
  split at h
  · cases h
    intro k hk
    rw [List.mem_singleton.1 hk]
    exact hP.indent
  · simp only at h
    split at h
    · cases h
      intro k hk
      rw [List.eq_of_mem_replicate hk]
      exact hP.dedent
    · cases h

theorem Reads.lineTokens (hP : Reads P) {n : Nat} {stack stack' : List Nat} {line : Bytes}
    {ts : List Token} (h : lineTokens n stack line = .ok (ts, stack')) : ∀ t ∈ ts, P t.kind := by
  unfold Lexer.lineTokens at h
  split at h
  · cases h; simp
  · split at h
    · cases h
    · rename_i marks stack'' hre
      simp only [bind, Except.bind] at h
      split at h
      · cases h
      · rename_i tokens htok
        simp only [pure, Except.pure, Except.ok.injEq, Prod.mk.injEq] at h
        obtain ⟨rfl, -⟩ := h
        intro t ht
        simp only [List.mem_append, List.mem_map, List.mem_singleton] at ht
        rcases ht with (⟨k, hk, rfl⟩ | ht) | rfl
        · exact hP.reindent hre k hk
        · exact hP.lexemes htok t ht
        · exact hP.newline

theorem Reads.linesTokens (hP : Reads P) {lines : List Bytes} :
    ∀ {n : Nat} {stack stack' : List Nat} {ts : List Token},
      linesTokens n stack lines = .ok (ts, stack') → ∀ t ∈ ts, P t.kind := by
  induction lines with
  | nil => intro n stack stack' ts h; cases h; simp
  | cons line rest ih =>
    intro n stack stack' ts h
    simp only [Lexer.linesTokens, bind, Except.bind] at h
    split at h
    · cases h
    · rename_i r hline
      split at h
      · cases h
      · rename_i r' hrest
        simp only [pure, Except.pure, Except.ok.injEq, Prod.mk.injEq] at h
        obtain ⟨rfl, -⟩ := h
        intro t ht
        rcases List.mem_append.1 ht with ht | ht
        · exact hP.lineTokens hline t ht
        · exact ih hrest t ht

theorem Reads.tokenize (hP : Reads P) {source : Bytes} {ts : List Token}
    (h : tokenize source = .ok ts) : ∀ t ∈ ts, P t.kind := by
  simp only [ChocoRv.tokenize, bind, Except.bind] at h
  split at h
  · cases h
  · rename_i r hlines
    simp only [pure, Except.pure, Except.ok.injEq] at h
    subst h
    intro t ht
    simp only [List.append_assoc, List.mem_append, List.mem_singleton] at ht
    rcases ht with ht | ht | rfl
    · exact hP.linesTokens hlines t ht
    · rw [List.eq_of_mem_replicate ht]
      exact hP.dedent
    · exact hP.eof

end Lexer

theorem tokenize_valid {source : Bytes} {ts : List Token} (h : tokenize source = .ok ts) :
    ∀ t ∈ ts, t.Valid := Lexer.reads_valid.tokenize h

namespace Parser

variable {α β σ : Type} {P : α → Prop} {Q : β → Prop}

/-- From valid tokens `p` returns a result with the property and leaves valid tokens. -/
def Keeps (P : α → Prop) (p : Parser α) : Prop :=
  ∀ ts, (∀ t ∈ ts, t.Valid) → ∀ a rest, p ts = .ok (a, rest) → P a ∧ ∀ t ∈ rest, t.Valid

namespace Keeps

theorem pure {a : α} (h : P a) : Keeps P (pure a) := by
  intro ts hts a' rest hr
  cases hr
  exact ⟨h, hts⟩

theorem bind {p : Parser α} {f : α → Parser β} (hp : Keeps P p) (hf : ∀ a, P a → Keeps Q (f a)) :
    Keeps Q (p >>= f) := by
  intro ts hts b rest hr
  change (p ts >>= fun r => f r.1 r.2) = _ at hr
  rcases hpts : p ts with e | ⟨a, ts'⟩
  · rw [hpts] at hr; cases hr
  · rw [hpts] at hr
    obtain ⟨ha, hts'⟩ := hp ts hts a ts' hpts
    exact hf a ha ts' hts' b rest hr

theorem mono {P' : α → Prop} {p : Parser α} (hp : Keeps P p) (h : ∀ a, P a → P' a) :
    Keeps P' p :=
  fun ts hts a rest hr => ⟨h a (hp ts hts a rest hr).1, (hp ts hts a rest hr).2⟩

theorem fail {c : Complaint} : Keeps P (fail c) := by
  intro ts hts a rest hr
  cases hr

theorem throw {e : Error} : Keeps P (throw e : Parser α) := by
  intro ts hts a rest hr
  cases hr

theorem ite {b : Prop} [Decidable b] {p q : Parser α} (hp : Keeps P p) (hq : Keeps P q) :
    Keeps P (if b then p else q) := by
  split
  · exact hp
  · exact hq

end Keeps

theorem keeps_current : Keeps Token.Valid current := by
  intro ts hts a rest hr
  cases hr
  refine ⟨?_, hts⟩
  cases ts with
  | nil => exact True.intro
  | cons t ts => exact hts t (by simp)

theorem keeps_advance : Keeps Token.Valid advance := by
  intro ts hts a rest hr
  cases ts with
  | nil => cases hr; exact ⟨True.intro, hts⟩
  | cons t ts => cases hr; exact ⟨hts _ (by simp), fun u hu => hts u (by simp [hu])⟩

theorem keeps_accept (k : Token.Kind) : Keeps (fun _ => True) (accept k) := by
  intro ts hts a rest hr
  refine ⟨True.intro, ?_⟩
  cases ts with
  | nil => cases hr; exact hts
  | cons t ts =>
    simp only [accept] at hr
    split at hr
    · cases hr; exact fun u hu => hts u (by simp [hu])
    · cases hr; exact hts

theorem keeps_expect (k : Token.Kind) (c : Complaint) : Keeps (fun _ => True) (expect k c) :=
  (keeps_accept k).bind fun _ _ => .ite (.pure True.intro) .fail

theorem keeps_identifier : Keeps (fun id => ValidName id.name) identifier := by
  intro ts hts a rest hr
  unfold identifier at hr
  split at hr
  · rename_i name loc ts'
    cases hr
    exact ⟨hts ⟨.identifier name, loc⟩ (by simp), fun u hu => hts u (by simp [hu])⟩
  · cases hr

theorem keeps_endOfLine : Keeps (fun _ => True) endOfLine := keeps_expect _ _

theorem keeps_run (k : Token.Kind) : Keeps (fun _ => True) (run k) := by
  intro ts
  induction ts with
  | nil => intro hts a rest hr; cases hr; exact ⟨True.intro, hts⟩
  | cons t ts ih =>
    intro hts a rest hr
    simp only [run] at hr
    split at hr
    · rcases h : run k ts with e | ⟨locs, rest'⟩
      · rw [h] at hr; cases hr
      · rw [h] at hr
        cases hr
        exact ⟨True.intro, (ih (fun u hu => hts u (by simp [hu])) locs _ h).2⟩
    · cases hr; exact ⟨True.intro, hts⟩

theorem keeps_iterate {P : σ → Prop} {step : σ → Parser (Option σ)}
    (hstep : ∀ s, P s → Keeps (fun r => ∀ s' ∈ r, P s') (step s)) :
    ∀ n s, P s → Keeps P (iterate step n s)
  | 0, _, _ => .throw
  | n + 1, s, hs => by
    rw [iterate]
    refine (hstep s hs).bind fun r hr => ?_
    cases r with
    | none => exact .pure hs
    | some s' => exact keeps_iterate hstep n s' (hr s' rfl)

theorem keeps_items {n : Nat} {close : Symbol} {c : Complaint} {item : Parser α}
    (h : Keeps P item) : Keeps (fun as => ∀ a ∈ as, P a) (items n close c item) := by
  refine Keeps.bind (P := fun as => ∀ a ∈ as, P a)
    (keeps_iterate (fun acc hacc => (keeps_accept _).bind fun b _ => ?_) n [] (by simp))
    fun as has => .pure (by simpa using has)
  have hnext : Keeps (fun r => ∀ s' ∈ r, ∀ a ∈ s', P a)
      (do return some ((← item) :: acc)) := by
    refine h.bind fun a ha => .pure ?_
    rintro s' ⟨⟩ b hb
    rcases List.mem_cons.1 hb with rfl | hb
    · exact ha
    · exact hacc b hb
  exact .ite (.pure (by simp)) (.ite hnext ((keeps_expect _ _).bind fun _ _ => hnext))

theorem literalOf?_valid {t : Token} (ht : t.Valid) {l : Literal} (h : literalOf? t = some l) :
    l.value.Valid := by
  unfold literalOf? at h
  simp only at h
  split at h <;> cases h
  case h_4 v hv =>
    have hmax : (Token.Kind.integer v).Valid := by simpa only [Token.Valid, hv] using ht
    exact ⟨Int.natCast_nonneg v, Int.ofNat_le.2 hmax⟩
  all_goals exact True.intro

theorem keeps_literal : Keeps (fun l => l.value.Valid) literal := by
  refine keeps_current.bind fun t ht => ?_
  split
  · exact keeps_advance.bind fun _ _ => .pure (literalOf?_valid ht ‹_›)
  · exact .fail

/-! ### Expressions -/

section Expressions

variable {n : Nat} {self : Parser Expr} (hself : Keeps Expr.Valid self)

include hself

theorem keeps_arguments : Keeps Expr.AllValid (arguments n self) :=
  (keeps_items hself).mono fun _ => Expr.allValid_iff.2

theorem keeps_atom : Keeps Expr.Valid (atom n self) := by
  refine keeps_current.bind fun t ht => ?_
  split
  · refine keeps_identifier.bind fun id hid => (keeps_accept _).bind fun b _ => ?_
    refine .ite ((keeps_arguments hself).bind fun args hargs => .pure ?_) (.pure ?_)
    · simpa only [Expr.Valid] using ⟨hid, hargs⟩
    · simpa only [Expr.Valid] using hid
  · refine keeps_advance.bind fun _ _ => (keeps_items hself).bind fun elems helems => .pure ?_
    simpa only [Expr.Valid] using Expr.allValid_iff.2 helems
  · exact keeps_advance.bind fun _ _ => hself.bind fun e he =>
      (keeps_expect _ _).bind fun _ _ => .pure he
  · split
    · refine keeps_advance.bind fun _ _ => .pure ?_
      simpa only [Expr.Valid] using literalOf?_valid ht ‹_›
    · exact .fail

theorem keeps_trailer {e : Expr} (he : e.Valid) :
    Keeps (fun r => ∀ e' ∈ r, e'.Valid) (trailer n self e) := by
  refine (keeps_accept _).bind fun b _ => .ite ?_ ?_
  · refine keeps_identifier.bind fun id hid => (keeps_accept _).bind fun b _ => .ite ?_ (.pure ?_)
    · refine (keeps_arguments hself).bind fun args hargs => .pure ?_
      rintro e' ⟨⟩
      simpa only [Expr.Valid] using ⟨he, hid, hargs⟩
    · rintro e' ⟨⟩
      simpa only [Expr.Valid] using ⟨he, hid⟩
  · refine (keeps_accept _).bind fun b _ => .ite ?_ (.pure (by simp))
    refine hself.bind fun i hi => (keeps_expect _ _).bind fun _ _ => .pure ?_
    rintro e' ⟨⟩
    simpa only [Expr.Valid] using ⟨he, hi⟩

theorem keeps_primary : Keeps Expr.Valid (primary n self) :=
  (keeps_atom hself).bind fun e he => keeps_iterate (fun _ h => keeps_trailer hself h) n e he

omit hself in
theorem unary_foldr_valid {op : UnOp} {locs : List Loc} {e : Expr} (he : e.Valid) :
    (locs.foldr (fun loc e => .unary ⟨loc, none⟩ op e) e).Valid := by
  induction locs with
  | nil => exact he
  | cons loc locs ih => simpa only [List.foldr_cons, Expr.Valid] using ih

theorem keeps_negation : Keeps Expr.Valid (negation n self) :=
  (keeps_run _).bind fun _ _ => (keeps_primary hself).bind fun _ he =>
    .pure (unary_foldr_valid he)

theorem keeps_operation {state : List (BinOp × Expr) × Bool} (h : ∀ x ∈ state.1, x.2.Valid) :
    Keeps (fun r => ∀ s ∈ r, ∀ x ∈ s.1, Expr.Valid x.2) (operation n self state) := by
  refine keeps_current.bind fun t _ => ?_
  split
  · exact .pure (by simp)
  · refine .ite (Keeps.fail.bind (P := fun _ => False) fun _ hf => hf.elim) ?_
    refine keeps_advance.bind fun _ _ => (keeps_negation hself).bind fun term ht => .pure ?_
    rintro s ⟨⟩ x hx
    rcases List.mem_cons.1 hx with rfl | hx
    · exact ht
    · exact h x hx

omit hself in
/-- Climbing keeps a property of trees that joining keeps. -/
theorem climb_keeps {ω : Type} {priority : ω → Nat} {node : α → ω → α → α}
    (hnode : ∀ l op r, P l → P r → P (node l op r)) (floor : Nat) (lhs : α)
    (rest : List (ω × α)) (hl : P lhs) (hr : ∀ x ∈ rest, P x.2) :
    P (Precedence.climb priority node floor lhs rest).1 ∧
      ∀ x ∈ (Precedence.climb priority node floor lhs rest).2.1, P x.2 := by
  fun_induction Precedence.climb priority node floor lhs rest with
  | case1 => exact ⟨hl, hr⟩
  | case2 floor lhs op term rest hop rhs after h₁ heq tree left h₂ heq' ih₁ ih₂ =>
    have h := ih₁ (hr (op, term) (by simp)) fun x hx => hr x (by simp [hx])
    rw [heq] at h
    have h' := ih₂ (hnode _ _ _ hl h.1) h.2
    rw [heq'] at h'
    exact h'
  | case3 => exact ⟨hl, hr⟩

theorem keeps_comparison : Keeps Expr.Valid (comparison n self) := by
  refine (keeps_negation hself).bind fun first hfirst => ?_
  refine (keeps_iterate (P := fun s => ∀ x ∈ s.1, Expr.Valid x.2)
    (fun _ h => keeps_operation hself h) n ([], false) (by simp)).bind fun r hr => .pure ?_
  refine (climb_keeps (fun l op r hl hr => ?_) 0 first _ hfirst (by simpa using hr)).1
  simpa only [Expr.joined, Expr.Valid] using ⟨hl, hr⟩

theorem keeps_denial : Keeps Expr.Valid (denial n self) :=
  (keeps_run _).bind fun _ _ => (keeps_comparison hself).bind fun _ he =>
    .pure (unary_foldr_valid he)

omit hself in
theorem keeps_logical {k : Keyword} {op : BinOp} {operand : Parser Expr}
    (h : Keeps Expr.Valid operand) : Keeps Expr.Valid (logical n k op operand) := by
  refine h.bind fun e he => keeps_iterate (fun left hl => ?_) n e he
  refine (keeps_accept _).bind fun b _ => .ite (h.bind fun r hr => .pure ?_) (.pure (by simp))
  rintro s ⟨⟩
  simpa only [Expr.joined, Expr.Valid] using ⟨hl, hr⟩

theorem keeps_disjunction : Keeps Expr.Valid (disjunction n self) :=
  keeps_logical (keeps_logical (keeps_denial hself))

theorem keeps_conditional : Keeps Expr.Valid (conditional n self) := by
  refine (keeps_disjunction hself).bind fun e he => (keeps_accept _).bind fun b _ => ?_
  refine .ite ((keeps_disjunction hself).bind fun test htest => ?_) (.pure he)
  refine (keeps_expect _ _).bind fun _ _ => hself.bind fun no hno => .pure ?_
  simpa only [Expr.Valid] using ⟨htest, he, hno⟩

end Expressions

theorem keeps_expression : ∀ n, Keeps Expr.Valid (expression n)
  | 0 => .throw
  | n + 1 => keeps_conditional (keeps_expression n)

/-! ### Statements -/

theorem keeps_blockStart : Keeps (fun _ => True) blockStart :=
  (keeps_expect _ _).bind fun _ _ => keeps_endOfLine.bind fun _ _ => keeps_expect _ _

theorem keeps_statements {n : Nat} {self : Parser (Option Stmt)}
    (h : Keeps (fun r => ∀ s ∈ r, s.Valid) self) :
    Keeps Stmt.AllValid (statements n self) := by
  refine (keeps_iterate (P := fun st => ∀ s ∈ st.1, Stmt.Valid s) (fun st hst => ?_) n ([], false)
    (by simp)).bind fun r hr => ?_
  · refine keeps_current.bind fun t _ => ?_
    split
    · exact .pure (by simp)
    · exact .fail
    · refine h.bind fun r hr => .pure ?_
      rintro st' ⟨⟩ s hs
      rcases List.mem_append.1 hs with hs | hs
      · exact hr s (by simpa using hs)
      · exact hst s hs
  · have hend : Keeps Stmt.AllValid (do let _ ← advance; return r.1.reverse) :=
      keeps_advance.bind fun _ _ => .pure (Stmt.allValid_iff.2 (by simpa using hr))
    exact .ite hend (Keeps.fail.bind (P := fun _ => False) fun _ hf => hf.elim)

theorem keeps_block {n : Nat} {self : Parser (Option Stmt)}
    (h : Keeps (fun r => ∀ s ∈ r, s.Valid) self) : Keeps Stmt.AllValid (block n self) :=
  keeps_blockStart.bind fun _ _ => keeps_statements h

theorem keeps_branches {test : Parser Expr} {body : Parser (List Stmt)}
    (htest : Keeps Expr.Valid test) (hbody : Keeps Stmt.AllValid body) :
    ∀ n, Keeps Stmt.Valid (branches test body n)
  | 0 => .throw
  | n + 1 => by
    rw [branches]
    refine keeps_advance.bind fun t _ => htest.bind fun c hc => hbody.bind fun yes hyes => ?_
    refine keeps_current.bind fun u _ => ?_
    split
    · refine (keeps_branches htest hbody n).bind fun s hs => .pure ?_
      simpa only [Stmt.Valid, Stmt.AllValid] using ⟨hc, hyes, hs, True.intro⟩
    · refine keeps_advance.bind fun _ _ => hbody.bind fun no hno => .pure ?_
      simpa only [Stmt.Valid] using ⟨hc, hyes, hno⟩
    · refine .pure ?_
      simpa only [Stmt.Valid, Stmt.AllValid] using ⟨hc, hyes, True.intro⟩

theorem keeps_assigned {n : Nat} {e : Expr} (he : e.Valid) :
    Keeps (fun es => ∀ e ∈ es, Expr.Valid e) (assigned n e) := by
  refine keeps_iterate (fun acc hacc => ?_) n [e] (by simpa using he)
  refine (keeps_accept _).bind fun b _ => .ite ?_ (.pure (by simp))
  refine (keeps_expression n).bind fun e he => .pure ?_
  rintro s ⟨⟩ x hx
  rcases List.mem_cons.1 hx with rfl | hx
  · exact he
  · exact hacc x hx

theorem keeps_simple {n : Nat} : Keeps (fun r => ∀ s ∈ r, Stmt.Valid s) (simple n) := by
  refine keeps_current.bind fun t _ => ?_
  split
  · exact keeps_advance.bind fun _ _ => .pure (by simp)
  · refine keeps_advance.bind fun _ _ => keeps_current.bind fun u _ => .ite (.pure ?_) ?_
    · rintro s ⟨⟩
      simp only [Stmt.Valid]
    · refine (keeps_expression n).bind fun e he => .pure ?_
      rintro s ⟨⟩
      simpa only [Stmt.Valid] using he
  · refine (keeps_expression n).bind fun e he => (keeps_assigned he).bind fun es hes => ?_
    have hexpr : Keeps (fun r => ∀ s ∈ r, Stmt.Valid s)
        (return some (.expr t.loc e) : Parser (Option Stmt)) := by
      refine .pure ?_
      rintro s ⟨⟩
      simpa only [Stmt.Valid] using he
    split
    · exact hexpr
    · exact hexpr
    · rename_i value reversed _
      simp only
      split
      · exact .throw
      · refine .pure ?_
        rintro s ⟨⟩
        simp only [Stmt.Valid]
        refine ⟨Expr.allValid_iff.2 fun x hx => ?_, fun x hx => ?_, ?_⟩
        · exact hes x (by simp [List.mem_reverse.1 hx])
        · have htarget := List.find?_eq_none.1 ‹_› x hx
          cases h : x.isTarget <;> simp [h] at htarget ⊢
        · exact hes value (by simp)

theorem keeps_statement : ∀ n, Keeps (fun r => ∀ s ∈ r, Stmt.Valid s) (statement n)
  | 0 => .throw
  | n + 1 => by
    have ih := keeps_statement n
    refine keeps_current.bind fun t _ => ?_
    split
    · refine (keeps_branches (keeps_expression _) (keeps_block ih) _).bind fun s hs => .pure ?_
      rintro s' ⟨⟩
      exact hs
    · refine keeps_advance.bind fun _ _ => (keeps_expression _).bind fun c hc =>
        (keeps_block ih).bind fun body hbody => .pure ?_
      rintro s ⟨⟩
      simpa only [Stmt.Valid] using ⟨hc, hbody⟩
    · refine keeps_advance.bind fun _ _ => keeps_identifier.bind fun id hid =>
        (keeps_expect _ _).bind fun _ _ => (keeps_expression _).bind fun it hit =>
        (keeps_block ih).bind fun body hbody => .pure ?_
      rintro s ⟨⟩
      simpa only [Stmt.Valid] using ⟨hid, hit, hbody⟩
    · exact keeps_simple.bind fun s hs => keeps_endOfLine.bind fun _ _ => .pure hs

/-! ### Declarations -/

theorem keeps_className : Keeps (fun _ => True) className := by
  intro ts hts a rest hr
  unfold className at hr
  split at hr
  · cases hr; exact ⟨True.intro, fun u hu => hts u (by simp [hu])⟩
  · cases hr; exact ⟨True.intro, fun u hu => hts u (by simp [hu])⟩
  · cases hr

theorem keeps_typeExpr : Keeps (fun _ => True) typeExpr := by
  refine (keeps_run _).bind fun opened _ => keeps_className.bind fun base _ => ?_
  induction opened.reverse generalizing base with
  | nil => exact .pure True.intro
  | cons loc locs ih =>
    rw [List.foldlM_cons]
    refine Keeps.bind (P := fun _ => True) ?_ fun a _ => ih a
    exact (keeps_expect _ _).bind fun _ _ => .pure True.intro

theorem keeps_typedVar : Keeps TypedVar.Valid typedVar :=
  keeps_identifier.bind fun _ hid => (keeps_expect _ _).bind fun _ _ =>
    keeps_typeExpr.bind fun _ _ => .pure hid

theorem keeps_varDef : Keeps VarDef.Valid varDef :=
  keeps_typedVar.bind fun _ hvar => (keeps_expect _ _).bind fun _ _ =>
    keeps_literal.bind fun _ hlit => keeps_endOfLine.bind fun _ _ => .pure ⟨hvar, hlit⟩

theorem keeps_declStart : Keeps (fun _ => True) declStart := by
  intro ts hts a rest hr
  unfold declStart at hr
  split at hr <;> cases hr <;> exact ⟨True.intro, hts⟩

theorem keeps_localDecl? {self : Parser FuncDef} (h : Keeps FuncDef.Valid self) :
    Keeps (fun r => ∀ d ∈ r, LocalDecl.Valid d) (localDecl? self) := by
  refine keeps_declStart.bind fun start _ => ?_
  split
  · refine keeps_varDef.bind fun d hd => .pure ?_
    rintro d' ⟨⟩
    simpa only [LocalDecl.Valid] using hd
  · refine h.bind fun f hf => .pure ?_
    rintro d' ⟨⟩
    simpa only [LocalDecl.Valid] using hf
  · refine keeps_advance.bind fun _ _ => keeps_identifier.bind fun id hid =>
      keeps_endOfLine.bind fun _ _ => .pure ?_
    rintro d' ⟨⟩
    simpa only [LocalDecl.Valid] using hid
  · refine keeps_advance.bind fun _ _ => keeps_identifier.bind fun id hid =>
      keeps_endOfLine.bind fun _ _ => .pure ?_
    rintro d' ⟨⟩
    simpa only [LocalDecl.Valid] using hid
  · exact .pure (by simp)
  · exact .pure (by simp)

theorem keeps_declarations {n : Nat} {decl? : Parser (Option α)}
    (h : Keeps (fun r => ∀ d ∈ r, P d) decl?) :
    Keeps (fun ds => ∀ d ∈ ds, P d) (declarations n decl?) := by
  refine Keeps.bind (P := fun ds => ∀ d ∈ ds, P d)
    (keeps_iterate (fun acc hacc => h.bind fun r hr => .pure ?_) n [] (by simp))
    fun ds hds => .pure (by simpa using hds)
  intro s hs d hd
  obtain ⟨d', rfl, rfl⟩ := Option.map_eq_some_iff.1 hs
  rcases List.mem_cons.1 hd with rfl | hd
  · exact hr _ rfl
  · exact hacc d hd

theorem keeps_funcDef : ∀ n, Keeps FuncDef.Valid (funcDef n)
  | 0 => .throw
  | n + 1 => by
    refine keeps_advance.bind fun t _ => keeps_identifier.bind fun id hid =>
      (keeps_expect _ _).bind fun _ _ => (keeps_items keeps_typedVar).bind fun ps hps => ?_
    refine Keeps.bind (P := fun _ => True) ?_ fun ret? _ => ?_
    · exact (keeps_accept _).bind fun b _ =>
        .ite (keeps_typeExpr.bind fun _ _ => .pure True.intro) (.pure True.intro)
    · refine keeps_blockStart.bind fun _ _ =>
        (keeps_declarations (keeps_localDecl? (keeps_funcDef n))).bind fun decls hdecls =>
        (keeps_statements (keeps_statement _)).bind fun body hbody => .pure ?_
      simpa only [FuncDef.Valid] using ⟨hid, hps, LocalDecl.allValid_iff.2 hdecls, hbody⟩

theorem keeps_classDef : ∀ n, Keeps ClassDef.Valid (classDef n)
  | 0 => .throw
  | n + 1 => by
    refine keeps_advance.bind fun t _ => keeps_identifier.bind fun id hid =>
      (keeps_expect _ _).bind fun _ _ => keeps_identifier.bind fun super hsuper =>
      (keeps_expect _ _).bind fun _ _ => keeps_blockStart.bind fun _ _ => ?_
    refine (keeps_iterate (P := fun ms => ∀ m ∈ ms, Member.Valid m) (fun acc hacc => ?_) _ []
      (by simp)).bind fun ms hms => .pure ⟨hid, hsuper, by simpa using hms⟩
    refine (keeps_accept _).bind fun b _ => .ite (.pure (by simp)) ?_
    refine (keeps_accept _).bind fun b _ => .ite ?_ (keeps_declStart.bind fun start _ => ?_)
    · exact keeps_endOfLine.bind fun _ _ => .pure (by simpa using hacc)
    · split
      · refine keeps_varDef.bind fun d hd => .pure ?_
        rintro ms ⟨⟩ m hm
        rcases List.mem_cons.1 hm with rfl | hm
        · exact hd
        · exact hacc m hm
      · refine (keeps_funcDef _).bind fun f hf => .pure ?_
        rintro ms ⟨⟩ m hm
        rcases List.mem_cons.1 hm with rfl | hm
        · exact hf
        · exact hacc m hm
      · exact (keeps_classDef n).bind fun _ _ => .fail
      · exact .fail
      · exact .fail
      · exact .fail

theorem keeps_topDecl? {n : Nat} : Keeps (fun r => ∀ d ∈ r, TopDecl.Valid d) (topDecl? n) := by
  refine keeps_declStart.bind fun start _ => ?_
  split
  · refine keeps_varDef.bind fun d hd => .pure ?_
    rintro d' ⟨⟩
    exact hd
  · refine (keeps_funcDef n).bind fun f hf => .pure ?_
    rintro d' ⟨⟩
    exact hf
  · refine (keeps_classDef n).bind fun c hc => .pure ?_
    rintro d' ⟨⟩
    exact hc
  · exact .pure (by simp)
  · exact .pure (by simp)
  · exact .pure (by simp)

theorem keeps_program {n : Nat} : Keeps Program.Valid (program n) := by
  refine (keeps_declarations keeps_topDecl?).bind fun decls hdecls => ?_
  refine (keeps_iterate (P := fun ss => ∀ s ∈ ss, Stmt.Valid s) (fun acc hacc => ?_) n []
    (by simp)).bind fun ss hss => .pure ⟨hdecls, Stmt.allValid_iff.2 (by simpa using hss)⟩
  refine keeps_current.bind fun t _ => .ite (.pure (by simp)) ?_
  refine (keeps_statement n).bind fun r hr => .pure ?_
  rintro ss ⟨⟩ s hs
  rcases List.mem_append.1 hs with hs | hs
  · exact hr s (by simpa using hs)
  · exact hacc s hs

end Parser

theorem parse_eq_ok {source : Bytes} {p : Program} :
    parse source = .ok p ↔ ∃ ts, tokenize source = .ok ts ∧ parseTokens ts = .ok p := by
  rw [parse]
  rcases tokenize source with e | ts
  · exact ⟨nofun, nofun⟩
  · show (parseTokens ts).mapError SourceError.grammar = .ok p ↔ _
    rcases hparse : parseTokens ts with e | q
    · refine ⟨nofun, ?_⟩
      rintro ⟨_, ⟨⟩, h⟩
      cases hparse.symm.trans h
    · constructor
      · rintro ⟨⟩
        exact ⟨ts, rfl, hparse⟩
      · rintro ⟨_, ⟨⟩, h⟩
        cases hparse.symm.trans h
        rfl

/-- Parsing gives valid trees only. -/
theorem parse_valid {source : Bytes} {p : Program} (h : parse source = .ok p) : p.Valid := by
  obtain ⟨ts, htok, h⟩ := parse_eq_ok.1 h
  simp only [parseTokens, Except.map] at h
  rcases hprog : Parser.program (ts.length + 1) ts with e | ⟨q, rest⟩
  · simp [hprog] at h
  · simp only [hprog, Except.ok.injEq] at h
    subst h
    exact (Parser.keeps_program ts (tokenize_valid htok) q rest hprog).1

end ChocoRv
