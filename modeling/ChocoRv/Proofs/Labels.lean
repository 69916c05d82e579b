import ChocoRv.Proofs.Meanings

/-!
# Labels of named things

The labels of global variables, functions, epilogues, prototypes and dispatch tables all read
`$` path suffix: the names of the path are joined by dots, and the suffix is empty or starts with
another `$`. Names of programs hold neither byte, so such a label tells its path and its suffix.
-/

namespace ChocoRv

def dot : UInt8 := '.'.toUInt8
def dollar : UInt8 := '$'.toUInt8

/-! ### Dotted paths -/

theorem append_cons_inj {a : UInt8} : ∀ {x y r r' : Bytes}, a ∉ x → a ∉ y →
    x ++ a :: r = y ++ a :: r' → x = y ∧ r = r'
  | [], [], r, r', _, _, h => ⟨rfl, (List.cons.inj h).2⟩
  | [], b :: y, r, r', _, hy, h => absurd (List.cons.inj h).1 (List.ne_of_not_mem_cons hy)
  | b :: x, [], r, r', hx, _, h => absurd (List.cons.inj h).1.symm (List.ne_of_not_mem_cons hx)
  | b :: x, c :: y, r, r', hx, hy, h => by
    obtain ⟨rfl, htail⟩ := List.cons.inj h
    obtain ⟨rfl, rfl⟩ := append_cons_inj (List.not_mem_of_not_mem_cons hx)
      (List.not_mem_of_not_mem_cons hy) htail
    exact ⟨rfl, rfl⟩

/-- The names of the path with dots between them. -/
def dotted (path : List Name) : Bytes := Bytes.join (txt ".") path

theorem dotted_singleton (x : Name) : dotted [x] = x := by simp [dotted, Bytes.join]

theorem dotted_cons_cons (x y : Name) (path : List Name) :
    dotted (x :: y :: path) = x ++ dot :: dotted (y :: path) := by
  simp [dotted, Bytes.join, List.intercalate, txt, dot]

theorem dotted_inj : ∀ {path path' : List Name}, path ≠ [] → path' ≠ [] →
    (∀ x ∈ path, dot ∉ x) → (∀ x ∈ path', dot ∉ x) → dotted path = dotted path' → path = path'
  | [x], [y], _, _, _, _, h => by simpa only [dotted_singleton, List.cons.injEq, and_true] using h
  | [x], y :: z :: path', _, _, hx, _, h => by
    rw [dotted_singleton, dotted_cons_cons] at h
    exact absurd (h ▸ by simp) (hx x (List.mem_singleton_self x))
  | x :: z :: path, [y], _, _, _, hy, h => by
    rw [dotted_singleton, dotted_cons_cons] at h
    exact absurd (h ▸ by simp) (hy y (List.mem_singleton_self y))
  | x :: z :: path, y :: w :: path', _, _, hx, hy, h => by
    rw [dotted_cons_cons, dotted_cons_cons] at h
    obtain ⟨rfl, hrest⟩ := append_cons_inj (hx _ (List.mem_cons_self ..))
      (hy _ (List.mem_cons_self ..)) h
    rw [dotted_inj (List.cons_ne_nil z path) (List.cons_ne_nil w path')
      (fun x hx' => hx x (List.mem_cons_of_mem _ hx'))
      (fun y hy' => hy y (List.mem_cons_of_mem _ hy')) hrest]

theorem notMem_dotted {b : UInt8} (hb : b ≠ dot) : ∀ {path : List Name}, (∀ x ∈ path, b ∉ x) →
    b ∉ dotted path
  | [], _ => by simp [dotted, Bytes.join]
  | [x], h => by
    rw [dotted_singleton]
    exact h x (List.mem_singleton_self x)
  | x :: y :: path, h => by
    rw [dotted_cons_cons, List.mem_append, List.mem_cons, not_or, not_or]
    exact ⟨h x (List.mem_cons_self ..), hb,
      notMem_dotted hb fun z hz => h z (List.mem_cons_of_mem _ hz)⟩

/-! ### Marked labels -/

/-- The label of what the path leads to, with a suffix for what is kept there. -/
def marked (path : List Name) (suffix : Bytes) : Label := dollar :: (dotted path ++ suffix)

/-- Paths that labels can be told from. -/
structure Plain (path : List Name) : Prop where
  ne_nil : path ≠ []
  dot : ∀ x ∈ path, dot ∉ x
  dollar : ∀ x ∈ path, dollar ∉ x

/-- Suffixes that can be told from names. -/
def IsSuffix (suffix : Bytes) : Prop := suffix = [] ∨ ∃ rest, suffix = dollar :: rest

theorem marked_inj {path path' : List Name} {suffix suffix' : Bytes} (h : Plain path)
    (h' : Plain path') (hs : IsSuffix suffix) (hs' : IsSuffix suffix')
    (heq : marked path suffix = marked path' suffix') : path = path' ∧ suffix = suffix' := by
  have hno := notMem_dotted (b := dollar) (by decide) h.dollar
  have hno' := notMem_dotted (b := dollar) (by decide) h'.dollar
  have heq := (List.cons.inj heq).2
  have hboth : dotted path = dotted path' ∧ suffix = suffix' := by
    rcases hs with rfl | ⟨rest, rfl⟩ <;> rcases hs' with rfl | ⟨rest', rfl⟩
    · exact ⟨by simpa using heq, rfl⟩
    · rw [List.append_nil] at heq
      exact absurd (heq ▸ by simp) hno
    · rw [List.append_nil] at heq
      exact absurd (heq ▸ by simp) hno'
    · obtain ⟨hpath, hrest⟩ := append_cons_inj hno hno' heq
      exact ⟨hpath, by rw [hrest]⟩
  exact ⟨dotted_inj h.ne_nil h'.ne_nil h.dot h'.dot hboth.1, hboth.2⟩

theorem ValidName.notMem {x : Name} (h : ValidName x) {b : UInt8}
    (hstart : Byte.isNameStart b = false) (hpart : Byte.isNamePart b = false) : b ∉ x := by
  obtain ⟨c, cs, rfl, hc, hcs⟩ := h.spelled
  intro hb
  rcases List.mem_cons.1 hb with rfl | hb
  · cases hstart.symm.trans hc
  · cases hpart.symm.trans (hcs b hb)

theorem plain_of_valid {path : List Name} (hne : path ≠ []) (h : ∀ x ∈ path, ValidName x) :
    Plain path :=
  ⟨hne, fun x hx => (h x hx).notMem (by decide) (by decide),
    fun x hx => (h x hx).notMem (by decide) (by decide)⟩

/-! ### Functions -/

variable {globals : Scope} {p : Program} {s t : FrameSite} {outer : Values} {env : Env}

theorem Frame.label_eq {f : Frame} (h : f.path ≠ []) : f.label = marked f.path [] := by
  unfold Frame.label Frame.name
  cases hpath : f.path with
  | nil => exact absurd hpath h
  | cons x path => simp [marked, dotted, txt, dollar]

theorem Frame.childLabel_eq (f : Frame) (x : Name) : f.childLabel x = marked (f.childPath x) [] := by
  simp [Frame.childLabel, Frame.childName, marked, dotted, txt, dollar]

theorem Program.Nested.path_valid (h : p.Nested globals s outer env) (hp : p.Valid) :
    ∀ x ∈ s.frame.path, ValidName x := by
  induction h with
  | func hf =>
    simp only [topSite, Frame.ofFunc, List.forall_mem_singleton]
    exact (hp.1 _ hf).ident
  | method hc hf =>
    have hmethod : FuncDef.Valid _ := (hp.1 _ hc).2.2 _ hf
    simp only [topSite, Frame.ofFunc, List.forall_mem_cons, List.not_mem_nil, false_imp_iff,
      implies_true, and_true]
    exact ⟨(hp.1 _ hc).ident, hmethod.name⟩
  | inner h hg ih =>
    simp only [FrameSite.inner, Frame.ofFunc, List.forall_mem_append, List.forall_mem_singleton]
    exact ⟨ih, ((h.valid hp).decls _ hg).ident⟩

theorem Program.Accepted.plain (hp : p.Accepted globals) (hs : s ∈ p.frames) :
    Plain s.frame.path := by
  obtain ⟨outer, env, hn⟩ := (mem_frames_iff globals).1 hs
  exact plain_of_valid hn.path_ne_nil (hn.path_valid hp.valid)

/-- No two functions have the same label. -/
theorem Program.Accepted.label_inj (hp : p.Accepted globals) (hs : s ∈ p.frames) (ht : t ∈ p.frames)
    (h : s.frame.label = t.frame.label) : s = t := by
  rw [Frame.label_eq (hp.plain hs).ne_nil, Frame.label_eq (hp.plain ht).ne_nil] at h
  have hpath := (marked_inj (hp.plain hs) (hp.plain ht) (.inl rfl) (.inl rfl) h).1
  exact List.inj_on_of_nodup_map hp.declared.paths_nodup hs ht hpath

end ChocoRv
