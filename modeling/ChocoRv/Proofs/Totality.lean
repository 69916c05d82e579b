import ChocoRv.Proofs.Units

/-!
# Generation never fails

The labels of an accepted program are told apart by their forms: a few fixed names, `$` paths with a
suffix, and stems with a number. So no label is defined twice and the listing of every accepted
program passes the check of its labels.
-/

namespace ChocoRv

open Asm Codegen Emit

variable {globals : Scope} {p : Program} {layouts : List ClassLayout}

/-! ### Forms of labels -/

/-- The labels that every listing defines. -/
def fixedLabels : List Label := txt "main" :: helperLabels

/-- The suffixes of labels with the paths of the functions, classes and variables that have them. -/
def markGroups (layouts : List ClassLayout) (p : Program) : List (Bytes × List (List Name)) :=
  [([], p.frames.map (·.frame.path) ++ (p.decls.filterMap TopDecl.var?).map fun d => [d.name]),
   (txt "$epilogue", p.frames.map (·.frame.path)),
   (txt "$prototype", layouts.map (fun l => [l.name]) ++ [[[], txt "list"]]),
   (txt "$dispatchTable", layouts.map fun l => [l.name])]

def marks (layouts : List ClassLayout) (p : Program) : List (List Name × Bytes) :=
  (markGroups layouts p).flatMap fun g => g.2.map fun path => (path, g.1)

def ofMark (k : List Name × Bytes) : Label := marked k.1 k.2

theorem head?_ofMark (k : List Name × Bytes) : (ofMark k).head? = some dollar := rfl

theorem ofMark_singleton (x suffix : Bytes) : ofMark ([x], suffix) = txt "$" ++ x ++ suffix := by
  simp [ofMark, marked, dotted_singleton, txt, dollar]

theorem namedLabels_perm (hp : p.Accepted globals) (layouts : List ClassLayout) :
    (namedLabels layouts p).Perm (fixedLabels ++ (marks layouts p).map ofMark) := by
  have hfunc : (p.frames.flatMap fun s => [s.frame.label, s.frame.label ++ txt "$epilogue"]).Perm
      (p.frames.map (fun s => ofMark (s.frame.path, [])) ++
        p.frames.map fun s => ofMark (s.frame.path, txt "$epilogue")) := by
    rw [List.map_eq_flatMap, List.map_eq_flatMap]
    refine .trans (.of_eq (List.flatMap_congr fun s hs => ?_)) (List.flatMap_append_perm _ _ _).symm
    have hlabel := Frame.label_eq (hp.plain hs).ne_nil
    simp [ofMark, hlabel, marked]
  have hprototype : layouts.map ClassLayout.prototypeLabel =
      layouts.map fun l => ofMark ([l.name], txt "$prototype") :=
    List.map_congr_left fun l _ => (ofMark_singleton _ _).symm
  have hdispatch : layouts.map ClassLayout.dispatchLabel =
      layouts.map fun l => ofMark ([l.name], txt "$dispatchTable") :=
    List.map_congr_left fun l _ => (ofMark_singleton _ _).symm
  have hvar : ((p.decls.filterMap TopDecl.var?).map fun d => globalLabel d.name) =
      (p.decls.filterMap TopDecl.var?).map fun d => ofMark ([d.name], []) := by
    refine List.map_congr_left fun d _ => ?_
    rw [ofMark_singleton, List.append_nil]
    rfl
  have hlist : txt "$.list$prototype" = ofMark ([[], txt "list"], txt "$prototype") := by decide
  rw [namedLabels, hprototype, hdispatch, hvar, hlist, List.perm_iff_count]
  intro l
  have hcount := List.perm_iff_count.1 hfunc l
  simp only [List.count_append] at hcount
  simp only [marks, markGroups, fixedLabels, List.flatMap_cons, List.flatMap_nil, List.map_append,
    List.map_cons, List.map_nil, List.map_map, Function.comp_def, List.count_append,
    List.count_cons, List.count_nil, List.cons_append, hcount]
  omega

/-- A path that can be told from its label, of bytes for labels. -/
def Formed (path : List Name) : Prop := Plain path ∧ ∀ x ∈ path, x.all Label.isPart = true

/-- Labels with different suffixes differ, and so do those with different paths. -/
theorem nodup_groups : ∀ {gs : List (Bytes × List (List Name))}, (gs.map Prod.fst).Nodup →
    (∀ g ∈ gs, g.2.Nodup) → (gs.flatMap fun g => g.2.map fun path => (path, g.1)).Nodup
  | [], _, _ => List.nodup_nil
  | g :: gs, hnd, h => by
    obtain ⟨hg, hgs⟩ := List.forall_mem_cons.1 h
    rw [List.map_cons, List.nodup_cons] at hnd
    rw [List.flatMap_cons, List.nodup_append]
    refine ⟨hg.map fun x y hxy => (Prod.mk.inj hxy).1, nodup_groups hnd.2 hgs, fun a ha b hb => ?_⟩
    obtain ⟨path, -, rfl⟩ := List.mem_map.1 ha
    obtain ⟨g', hg', hb⟩ := List.mem_flatMap.1 hb
    obtain ⟨path', -, rfl⟩ := List.mem_map.1 hb
    intro heq
    have hsuffix : g.1 = g'.1 := congrArg Prod.snd heq
    exact hnd.1 (hsuffix ▸ List.mem_map_of_mem hg')

theorem formed_of_valid {path : List Name} (hne : path ≠ []) (hpath : ∀ x ∈ path, ValidName x) :
    Formed path := by
  refine ⟨plain_of_valid hne hpath, fun x hx => ?_⟩
  have hstart : ∀ b : UInt8, Byte.isNameStart b = true → Label.isPart b = true := fun b hb => by
    simp [Label.isPart, Label.isStart, hb]
  have hpart : ∀ b : UInt8, Byte.isNamePart b = true → Label.isPart b = true := fun b hb => by
    rcases Bool.or_eq_true_iff.1 hb with hb | hb
    · exact hstart b hb
    · exact isPart_of_isDigit hb
  obtain ⟨c, cs, rfl, hc, hcs⟩ := (hpath x hx).spelled
  simpa [hstart c hc] using fun b hb => hpart b (hcs b hb)

namespace Program.Accepted

/-- A function has not the path of a variable. -/
theorem path_ne_var (hp : p.Accepted globals) {s : FrameSite} (hs : s ∈ p.frames) {d : VarDef}
    (hd : .var d ∈ p.decls) : s.frame.path ≠ [d.name] := by
  obtain ⟨outer, env, hn⟩ := (mem_frames_iff globals).1 hs
  intro hpath
  cases hn with
  | @func f hf =>
    have hname : f.name = d.name := List.singleton_inj.1 hpath
    cases List.inj_on_of_nodup_map hp.declared.nodup hf hd hname
  | method => simp [topSite, Frame.ofFunc] at hpath
  | @inner s outer env g h hg =>
    have hlen := congrArg List.length hpath
    have hpos := List.length_pos_of_ne_nil h.path_ne_nil
    simp only [FrameSite.inner, Frame.ofFunc, List.length_append, List.length_singleton] at hlen
    omega

theorem mem_vars {d : VarDef} (hd : d ∈ p.decls.filterMap TopDecl.var?) : .var d ∈ p.decls := by
  obtain ⟨top, htop, hpick⟩ := List.mem_filterMap.1 hd
  cases TopDecl.var?_eq_some.1 hpick
  exact htop

theorem marks_nodup (hp : p.Accepted globals) (h : p.layouts globals = .ok layouts) :
    (marks layouts p).Nodup := by
  have hsingle : ∀ {xs : List Name}, xs.Nodup → (xs.map fun x => [x]).Nodup := fun hnd =>
    hnd.map fun x y => List.singleton_inj.1
  have hclasses : (layouts.map fun l => [l.name]).Nodup := by
    simpa only [List.map_map, Function.comp_def] using hsingle (hp.layouts_nodup h)
  have hvars : ((p.decls.filterMap TopDecl.var?).map fun d => [d.name]).Nodup := by
    have hnames := Declarations.nodup_filterMap_name TopDecl.var? VarDef.name
      (fun d v h => by cases TopDecl.var?_eq_some.1 h; rfl) hp.declared.nodup
    simpa only [List.map_map, Function.comp_def] using hsingle hnames
  have hpaths := hp.declared.paths_nodup
  refine nodup_groups (show [[], txt "$epilogue", txt "$prototype", txt "$dispatchTable"].Nodup by
    decide) ?_
  simp only [markGroups, List.forall_mem_cons, List.not_mem_nil, false_imp_iff, implies_true,
    and_true]
  refine ⟨List.nodup_append.2 ⟨hpaths, hvars, fun a ha b hb => ?_⟩, hpaths,
    List.nodup_append.2 ⟨hclasses, List.nodup_singleton _, fun a ha b hb => ?_⟩, hclasses⟩
  · obtain ⟨s, hs, rfl⟩ := List.mem_map.1 ha
    obtain ⟨d, hd, rfl⟩ := List.mem_map.1 hb
    exact hp.path_ne_var hs (mem_vars hd)
  · obtain ⟨l, -, rfl⟩ := List.mem_map.1 ha
    rw [List.mem_singleton.1 hb]
    simp

theorem markGroups_formed (hp : p.Accepted globals) (h : p.layouts globals = .ok layouts) :
    ∀ g ∈ markGroups layouts p, ∀ path ∈ g.2, Formed path := by
  have hfunc : ∀ path ∈ p.frames.map (·.frame.path), Formed path :=
    List.forall_mem_map.2 fun s hs => formed_of_valid (hp.plain hs).ne_nil (hp.path_valid hs)
  have hvar : ∀ path ∈ (p.decls.filterMap TopDecl.var?).map fun d => [d.name], Formed path :=
    List.forall_mem_map.2 fun d hd => formed_of_valid (List.cons_ne_nil _ _)
      (List.forall_mem_singleton.2 (hp.valid.1 _ (mem_vars hd)).ident)
  have hclass : ∀ path ∈ layouts.map fun l => [l.name], Formed path :=
    List.forall_mem_map.2 fun l hl => formed_of_valid (List.cons_ne_nil _ _)
      (List.forall_mem_singleton.2 (hp.layout_name_valid h hl))
  have hlist : Formed [[], txt "list"] :=
    ⟨⟨by decide, by decide, by decide⟩, by decide⟩
  simp only [markGroups, List.forall_mem_cons, List.not_mem_nil, false_imp_iff, implies_true,
    and_true]
  exact ⟨List.forall_mem_append.2 ⟨hfunc, hvar⟩, hfunc,
    List.forall_mem_append.2 ⟨hclass, List.forall_mem_singleton.2 hlist⟩, hclass⟩

theorem marks_plain (hp : p.Accepted globals) (h : p.layouts globals = .ok layouts) :
    ∀ k ∈ marks layouts p, Plain k.1 ∧ IsSuffix k.2 ∧ Label.wellFormed (ofMark k) = true := by
  have hsuffixes : ∀ suffix ∈ (markGroups layouts p).map Prod.fst,
      (suffix = [] ∨ suffix.head? = some dollar) ∧ suffix.all Label.isPart = true :=
    show ∀ suffix ∈ [[], txt "$epilogue", txt "$prototype", txt "$dispatchTable"], _ by decide
  intro k hk
  obtain ⟨g, hg, hk⟩ := List.mem_flatMap.1 hk
  obtain ⟨path, hpath, rfl⟩ := List.mem_map.1 hk
  obtain ⟨hplain, hbytes⟩ := hp.markGroups_formed h g hg path hpath
  obtain ⟨hsuffix, hend⟩ := hsuffixes _ (List.mem_map_of_mem hg)
  refine ⟨hplain, hsuffix.imp_right fun hhead => ?_, ?_⟩
  · obtain ⟨rest, hrest⟩ := List.head?_eq_some_iff.1 hhead
    exact ⟨rest, hrest⟩
  · have hdotted : (dotted path).all Label.isPart = true := by
      rw [List.all_eq_true]
      intro b hb
      by_contra hpart
      have hne : b ≠ dot := by
        rintro rfl
        exact hpart (by decide)
      exact notMem_dotted hne (fun x hx hbx => hpart (List.all_eq_true.1 (hbytes x hx) b hbx)) hb
    show (Label.isStart dollar && (dotted path ++ g.1).all Label.isPart) = true
    rw [List.all_append, hdotted, hend]
    decide

/-- No two named labels of a program are equal. -/
theorem namedLabels_nodup (hp : p.Accepted globals) (h : p.layouts globals = .ok layouts) :
    (namedLabels layouts p).Nodup := by
  rw [(namedLabels_perm hp layouts).nodup_iff, List.nodup_append]
  refine ⟨by decide, ?_, fun a ha b hb => ?_⟩
  · refine (hp.marks_nodup h).map_on fun k hk k' hk' heq => ?_
    obtain ⟨hplain, hsuffix, -⟩ := hp.marks_plain h k hk
    obtain ⟨hplain', hsuffix', -⟩ := hp.marks_plain h k' hk'
    obtain ⟨hpath, hsuffix⟩ := marked_inj hplain hplain' hsuffix hsuffix' heq
    exact Prod.ext hpath hsuffix
  · have hfixed : ∀ l ∈ fixedLabels, l.head? ≠ some dollar := by decide
    obtain ⟨k, -, rfl⟩ := List.mem_map.1 hb
    rintro rfl
    exact hfixed _ ha (head?_ofMark k)

end Program.Accepted

/-- What can be told of a named label from its ends. -/
theorem namedLabels_ends (hp : p.Accepted globals) {l : Label} (hl : l ∈ namedLabels layouts p) :
    l.head? = some dollar ∨ l.getLast?.all Byte.isDigit = false := by
  have hfixed : ∀ l ∈ fixedLabels, l.getLast?.all Byte.isDigit = false := by decide
  rcases List.mem_append.1 ((namedLabels_perm hp layouts).mem_iff.1 hl) with hl | hl
  · exact .inr (hfixed l hl)
  · obtain ⟨k, -, rfl⟩ := List.mem_map.1 hl
    exact .inl (head?_ofMark k)

/-! ### Numbered labels -/

theorem Pool.label_eq (k : Nat) : Asm.Pool.label k = freshLabel (txt "const") k := rfl

theorem freshLabel_head {stem : String} (h : stem ∈ "const" :: stems) (k : Nat) :
    ∃ c cs, freshLabel (txt stem) k = c :: cs ∧ c ≠ dollar ∧ Label.isStart c = true ∧
      cs.all Label.isPart = true := by
  have hstems : ∀ stem ∈ "const" :: stems, ∃ c ∈ (txt stem).head?, c ≠ dollar ∧
      Label.isStart c = true ∧ (txt stem).tail.all Label.isPart = true := by decide
  obtain ⟨c, hc, hne, hstart, htail⟩ := hstems stem h
  obtain ⟨cs, hcs⟩ := List.head?_eq_some_iff.1 hc
  have hdigits : (decimal k).all Label.isPart = true :=
    List.all_eq_true.2 fun b hb => isPart_of_isDigit (isDigit_of_mem_decimal hb)
  rw [hcs, List.tail_cons] at htail
  refine ⟨c, cs ++ txt "_" ++ decimal k, by rw [freshLabel, hcs]; rfl, hne, hstart, ?_⟩
  rw [List.all_append, List.all_append, htail, hdigits]
  decide

theorem freshLabel_wellFormed {stem : String} (h : stem ∈ "const" :: stems) (k : Nat) :
    Label.wellFormed (freshLabel (txt stem) k) = true := by
  obtain ⟨c, cs, hlabel, -, hstart, hpart⟩ := freshLabel_head h k
  rw [hlabel, Label.wellFormed, hstart, hpart]
  rfl

theorem freshLabel_ne_named (hp : p.Accepted globals) {stem : String} (h : stem ∈ "const" :: stems)
    (k : Nat) : freshLabel (txt stem) k ∉ namedLabels layouts p := by
  intro hmem
  rcases namedLabels_ends hp hmem with hhead | hlast
  · obtain ⟨c, cs, hlabel, hne, -⟩ := freshLabel_head h k
    rw [hlabel] at hhead
    exact hne (Option.some.inj hhead)
  · exact freshLabel_ne hlast _ k rfl

theorem freshLabel_ne_const {stem : String} (h : stem ∈ stems) (j k : Nat) :
    freshLabel (txt stem) j ≠ Asm.Pool.label k := by
  intro heq
  rw [Pool.label_eq] at heq
  obtain rfl := freshLabel_number heq
  have hstem : txt stem = txt "const" := List.append_cancel_right (List.append_cancel_right heq)
  have hstems : ∀ stem ∈ stems, txt stem ≠ txt "const" := by decide
  exact hstems stem h hstem

/-! ### Constants -/

namespace Asm.Pool

variable {pool : Pool}

theorem defined_items (pool : Pool) (h : Headers) :
    defined (pool.items h) = pool.ids.map label := by
  have hints : defined (pool.ints.flatMap fun e =>
      scalarItems h.int (label e.2) e.1 (txt "int " ++ signed e.1)) =
        pool.ints.map fun e => label e.2 := defined_flatMap fun e _ => rfl
  have hstrs : defined (pool.strs.flatMap fun e => strItems h.str (label e.2) e.1) =
        pool.strs.map fun e => label e.2 := defined_flatMap fun e _ => rfl
  have hbool : ∀ b value comment, defined (scalarItems h.bool (boolLabel b) value comment) =
      [boolLabel b] := fun _ _ _ => rfl
  rw [Pool.items, defined_append, defined_append, defined_append, hbool, hbool, hints, hstrs]
  simp [ids, boolLabel, Function.comp_def]

theorem label_injective : Function.Injective label := fun _ _ h =>
  decimal_injective (List.append_cancel_left h)

theorem mem_items {h : Headers} {i : Item} (hi : i ∈ pool.items h) :
    (∃ l value comment, i ∈ scalarItems h.bool l value comment ∧ 0 ≤ value ∧ value ≤ 1 ∧
      newline ∉ comment) ∨
    (∃ e ∈ pool.ints, i ∈ scalarItems h.int (label e.2) e.1 (txt "int " ++ signed e.1)) ∨
    ∃ e ∈ pool.strs, i ∈ strItems h.str (label e.2) e.1 := by
  simp only [Pool.items, List.mem_append, List.mem_flatMap, or_assoc] at hi
  rcases hi with hi | hi | hi | hi
  · exact .inl ⟨_, _, _, hi, by decide, by decide, by decide⟩
  · exact .inl ⟨_, _, _, hi, by decide, by decide, by decide⟩
  · exact .inr (.inl hi)
  · exact .inr (.inr hi)

theorem scalarItems_printable {h : Header} (htag : 0 ≤ h.tag ∧ h.tag ≤ 3) (l : Label) {value : Int}
    (hvalue : 0 ≤ value ∧ value ≤ 2147483647) {comment : Bytes} (hcomment : newline ∉ comment) :
    ∀ i ∈ scalarItems h l value comment, i.Printable := by
  simp only [scalarItems, List.forall_mem_cons, Item.Printable, List.not_mem_nil, false_imp_iff,
    implies_true, and_true, true_and]
  exact ⟨⟨by omega, by decide⟩, by decide, by decide, by omega, hcomment⟩

theorem strItems_printable {h : Header} (htag : 0 ≤ h.tag ∧ h.tag ≤ 3) (l : Label) (value : Bytes) :
    ∀ i ∈ strItems h l value, i.Printable := by
  simp only [strItems, List.forall_mem_cons, Item.Printable, List.not_mem_nil, false_imp_iff,
    implies_true, and_true, true_and]
  exact ⟨⟨by omega, by decide⟩, ⟨ClassLayout.int32_range _, by decide⟩, by decide,
    ⟨ClassLayout.int32_range _, by decide⟩, by decide⟩

theorem items_printable (hpool : pool.Sound) : ∀ i ∈ pool.items headers, i.Printable := by
  intro i hi
  rcases mem_items hi with ⟨l, value, comment, hi, h0, h1, hcomment⟩ | ⟨e, he, hi⟩ | ⟨e, -, hi⟩
  · exact scalarItems_printable (by decide) l (by omega) hcomment i hi
  · refine scalarItems_printable (by decide) _ (hpool.ints e he) ?_ i hi
    rw [List.mem_append, not_or]
    exact ⟨by decide, (operand_signed e.1).notMem (by decide)⟩
  · exact strItems_printable (by decide) _ _ i hi

theorem items_referred (pool : Pool) : ∀ l ∈ referred (pool.items headers),
    ∃ b ∈ ClassLayout.builtins, l = b.dispatchLabel := by
  intro l hl
  obtain ⟨i, hi, hrefers⟩ := List.mem_filterMap.1 hl
  have hscalar : ∀ {h : Header} {label : Label} {value : Int} {comment : Bytes},
      i ∈ scalarItems h label value comment → l = h.dispatch := by
    intro h label value comment hi
    simp only [scalarItems, List.mem_cons, List.not_mem_nil, or_false] at hi
    rcases hi with rfl | rfl | rfl | rfl | rfl | rfl <;> cases hrefers
    rfl
  rcases mem_items hi with ⟨_, _, _, hi, -⟩ | ⟨e, -, hi⟩ | ⟨e, -, hi⟩
  · exact ⟨.bool, by decide, hscalar hi⟩
  · exact ⟨.int, by decide, hscalar hi⟩
  · refine ⟨.str, by decide, ?_⟩
    simp only [strItems, List.mem_cons, List.not_mem_nil, or_false] at hi
    rcases hi with rfl | rfl | rfl | rfl | rfl | rfl | rfl <;> cases hrefers
    rfl

end Asm.Pool

/-! ### The listing -/

/-- A listing whose items can be printed and whose labels are in order. -/
structure Asm.Complete (items : List Item) (external : List Label) : Prop where
  printable : ∀ i ∈ items, i.Printable
  nodup : (defined items).Nodup
  formed : ∀ l ∈ defined items ++ referred items, Label.wellFormed l = true
  closed : ∀ l ∈ referred items, l ∈ defined items ∨ l ∈ external

/-- A known label is defined or that of a routine. -/
theorem Program.Known.defined {l : Label} (h : p.Known layouts l) :
    l ∈ namedLabels layouts p ∨ l ∈ runtimeLabels := by
  simp only [namedLabels, List.cons_append, List.mem_cons, List.mem_append, List.mem_map,
    List.mem_flatMap, List.mem_filterMap, List.not_mem_nil, or_false]
  cases h with
  | routine h =>
    rcases List.mem_append.1 h with h | h
    · exact .inr h
    · exact .inl (.inr (.inl (.inl (.inl (.inl (.inr h))))))
  | globalVar h => exact .inl (.inr (.inr ⟨_, ⟨_, h, rfl⟩, rfl⟩))
  | func h => exact .inl (.inr (.inl (.inl (.inl (.inl (.inl ⟨_, h, .inl rfl⟩))))))
  | epilogue h => exact .inl (.inr (.inl (.inl (.inl (.inl (.inl ⟨_, h, .inr rfl⟩))))))
  | prototype h => exact .inl (.inr (.inl (.inl (.inl (.inr ⟨_, h, rfl⟩)))))
  | dispatch h => exact .inl (.inr (.inl (.inr ⟨_, h, rfl⟩)))

/-- The labels that a listing defines: named ones, fresh ones and those of the constants. -/
def listedLabels (layouts : List ClassLayout) (p : Program) (body : List Item) (pool : Pool) :
    List Label :=
  namedLabels layouts p ++ (defined body ++ pool.ids.map Pool.label)

section

variable {code body : List Item} {s s' : EmitState} {pool : Pool}

theorem defined_listing (hperm : (defined code).Perm (namedLabels layouts p ++ defined body))
    (pool : Pool) :
    (defined (code ++ pool.items headers)).Perm (listedLabels layouts p body pool) := by
  rw [defined_append, Pool.defined_items, listedLabels, ← List.append_assoc]
  exact hperm.append_right _

namespace Program.Accepted

theorem listedLabels_nodup (hp : p.Accepted globals) (h : p.layouts globals = .ok layouts)
    (hbody : Numbered s body s') (hpool : pool.Sound) :
    (listedLabels layouts p body pool).Nodup := by
  rw [listedLabels, List.nodup_append, List.nodup_append]
  refine ⟨hp.namedLabels_nodup h, ⟨hbody.nodup, hpool.nodup.map Pool.label_injective, ?_⟩, ?_⟩
  · intro a ha b hb
    obtain ⟨stem, hstem, j, rfl⟩ := hbody.fresh a ha
    obtain ⟨k, -, rfl⟩ := List.mem_map.1 hb
    exact freshLabel_ne_const hstem j k
  · rintro a ha b hb rfl
    rcases List.mem_append.1 hb with hb | hb
    · obtain ⟨stem, hstem, j, rfl⟩ := hbody.fresh a hb
      exact freshLabel_ne_named hp (List.mem_cons_of_mem _ hstem) j ha
    · obtain ⟨k, -, rfl⟩ := List.mem_map.1 hb
      exact freshLabel_ne_named hp (List.mem_cons_self ..) k ha

theorem namedLabels_formed (hp : p.Accepted globals) (h : p.layouts globals = .ok layouts)
    {l : Label} (hl : l ∈ namedLabels layouts p) : Label.wellFormed l = true := by
  rcases List.mem_append.1 ((namedLabels_perm hp layouts).mem_iff.1 hl) with hl | hl
  · have hfixed : ∀ l ∈ fixedLabels, Label.wellFormed l = true := by decide
    exact hfixed l hl
  · obtain ⟨k, hk, rfl⟩ := List.mem_map.1 hl
    exact (hp.marks_plain h k hk).2.2

theorem listedLabels_formed (hp : p.Accepted globals) (h : p.layouts globals = .ok layouts)
    (hbody : Numbered s body s') {l : Label} (hl : l ∈ listedLabels layouts p body pool) :
    Label.wellFormed l = true := by
  rcases List.mem_append.1 hl with hl | hl
  · exact hp.namedLabels_formed h hl
  · rcases List.mem_append.1 hl with hl | hl
    · obtain ⟨stem, hstem, k, rfl⟩ := hbody.fresh l hl
      exact freshLabel_wellFormed (List.mem_cons_of_mem _ hstem) k
    · obtain ⟨k, -, rfl⟩ := List.mem_map.1 hl
      exact freshLabel_wellFormed (List.mem_cons_self ..) k

/-- What code and constants refer to is listed or a label of the runtime. -/
theorem referred_listing (hp : p.Accepted globals) (h : p.layouts globals = .ok layouts)
    (hlinked : Linkable (p.Known layouts) s code s')
    (hperm : (defined code).Perm (namedLabels layouts p ++ defined body)) {l : Label}
    (hl : l ∈ referred (code ++ s'.pool.items headers)) :
    l ∈ listedLabels layouts p body s'.pool ∨ l ∈ runtimeLabels := by
  have hknown : ∀ l, p.Known layouts l →
      l ∈ listedLabels layouts p body s'.pool ∨ l ∈ runtimeLabels := fun l hl =>
    hl.defined.imp_left (List.mem_append_left _)
  rw [referred_append, List.mem_append] at hl
  rcases hl with hl | hl
  · rcases hlinked.labels l hl with hl | hl | ⟨k, hk, rfl⟩
    · exact hknown l hl
    · rw [listedLabels, ← List.append_assoc]
      exact .inl (List.mem_append_left _ (hperm.mem_iff.1 hl))
    · exact .inl (List.mem_append_right _ (List.mem_append_right _ (List.mem_map_of_mem hk)))
  · obtain ⟨b, hb, rfl⟩ := s'.pool.items_referred l hl
    exact hknown _ (.dispatch ((hp.layouts_extend h).1.subset hb))

end Program.Accepted

/-- A listing is the code of the units with the constants behind it. -/
theorem Program.items_of_units (h : p.layouts globals = .ok layouts)
    (hcode : emitUnits globals layouts p {} = .ok ((), code, s)) :
    p.items globals = .ok (code ++ s.pool.items headers) := by
  have hprogram : emitProgram globals layouts p {} =
      .ok ((), code ++ s.pool.items headers, s) := by
    rw [emitProgram_eq, bind_apply, hcode]
    rfl
  rw [Program.items, h]
  show (emitProgram globals layouts p {} >>= _) = _
  rw [hprogram]
  rfl

end

/-- Every accepted program has a listing with its labels in order. -/
theorem Program.Accepted.items_complete (hp : p.Accepted globals) :
    ∃ items, p.items globals = .ok items ∧ Complete items runtimeLabels := by
  obtain ⟨layouts, hlayouts, -⟩ := hp.layouts
  obtain ⟨_, code, s, hcode, hlinked, body, hbody, hperm⟩ := emitUnits_emits hp hlayouts {}
  have hpool : s.pool.Sound := hlinked.pool Pool.sound_empty
  have hdefined := defined_listing hperm s.pool
  have hreferred : ∀ l ∈ referred (code ++ s.pool.items headers),
      l ∈ listedLabels layouts p body s.pool ∨ l ∈ runtimeLabels := fun l hl =>
    hp.referred_listing hlayouts hlinked hperm hl
  have hformed : ∀ l ∈ listedLabels layouts p body s.pool, Label.wellFormed l = true :=
    fun l hl => hp.listedLabels_formed hlayouts hbody hl
  have hruntime : ∀ l ∈ runtimeLabels, Label.wellFormed l = true := by decide
  refine ⟨_, Program.items_of_units hlayouts hcode, ?_⟩
  exact {
    printable := List.forall_mem_append.2 ⟨hlinked.printable, Pool.items_printable hpool⟩
    nodup := hdefined.nodup_iff.2 (hp.listedLabels_nodup hlayouts hbody hpool)
    formed := List.forall_mem_append.2 ⟨fun l hl => hformed l (hdefined.mem_iff.1 hl),
      fun l hl => (hreferred l hl).elim (hformed l) (hruntime l)⟩
    closed := fun l hl => (hreferred l hl).imp_left hdefined.mem_iff.2 }

/-- Code generation succeeds on every accepted program, with comments and without: the text defines
no label twice, all its labels are well formed, and each that it refers to is defined in it or is a
label of the runtime. -/
theorem generation_succeeds {source : Bytes} (h : Accepts source globals p) (comments : Bool) :
    ∃ text, p.generate globals comments = .ok text ∧ (definedIn text).Nodup ∧
      (∀ l ∈ definedIn text ++ referredIn text, Label.wellFormed l = true) ∧
      ∀ l ∈ referredIn text, l ∈ definedIn text ∨ l ∈ runtimeLabels := by
  obtain ⟨items, hitems, hcomplete⟩ := h.accepted.items_complete
  have hlabels : ∀ i ∈ items, i.LabelsWellFormed := fun i hi =>
    ⟨fun l hl => hcomplete.formed l (List.mem_append_left _ (List.mem_filterMap.2 ⟨i, hi, hl⟩)),
      fun l hl => hcomplete.formed l (List.mem_append_right _ (List.mem_filterMap.2 ⟨i, hi, hl⟩))⟩
  have hdefined := definedIn_render hcomplete.printable hlabels comments
  have hreferred := referredIn_render hcomplete.printable hlabels comments
  have hfinish := finish_ok comments hcomplete.printable hlabels hcomplete.nodup hcomplete.closed
  refine ⟨render comments items, ?_, ?_, ?_, ?_⟩
  · rw [Program.generate, hitems]
    show Except.mapError CodegenError.labels (Listing.finish _) = _
    rw [hfinish]
    rfl
  · rw [hdefined]
    exact hcomplete.nodup
  · rw [hdefined, hreferred]
    exact hcomplete.formed
  · rw [hdefined, hreferred]
    exact hcomplete.closed

/-- The code for classes that override methods, with its comments. -/
theorem overriding_generated : ∃ globals p, Accepts overriding globals p ∧
    ∃ text, p.generate globals true = .ok text ∧ (definedIn text).Nodup := by
  have hrun : (accepted? overriding).isSome = true := by decide +kernel
  obtain ⟨⟨globals, p⟩, hr⟩ := Option.isSome_iff_exists.1 hrun
  have haccepts := accepts_of_accepted? hr
  obtain ⟨text, htext, hnodup, -⟩ := generation_succeeds haccepts true
  exact ⟨globals, p, haccepts, text, htext, hnodup⟩

end ChocoRv
