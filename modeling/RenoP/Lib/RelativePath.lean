import RenoP.Lib.Nested
import RenoP.Lib.SlashPath
import Mathlib.Data.List.TakeWhile

/-!
# Relative paths (filepath.Rel of the Go standard library)

On a system with slashes only. Between absolute clean paths `rel` is decided by their lists of
names: it leads down through the rest of a longer list, and starts with `..` otherwise.
-/

namespace SlashPath

/-- The loop of `filepath.Rel`: what is left of both paths from their first differing elements, and
the element of the base that differs. Each turn takes at least one character of the base. -/
def relLoop : ℕ → Path → Path → Path × Path × Path
  | 0, base, targ => (base, targ, [])
  | n + 1, base, targ =>
    if base = [] ∨ targ = [] then (base, targ, [])
    else if targ.takeWhile (· != '/') ≠ base.takeWhile (· != '/') then
      (base, targ, base.takeWhile (· != '/'))
    else relLoop n ((base.dropWhile (· != '/')).drop 1) ((targ.dropWhile (· != '/')).drop 1)

def rel (basePath targPath : Path) : Option Path :=
  let base := clean basePath
  let targ := clean targPath
  if targ = base then some dot
  else
    let base := if base = dot then [] else base
    if rooted base ≠ rooted targ then none
    else
      let (base, targ, word) := relLoop base.length base targ
      if word = dotDot then none
      else if base ≠ [] then
        let ups := dotDot ++ (List.replicate (base.count '/') ('/' :: dotDot)).flatten
        some (if targ ≠ [] then ups ++ '/' :: targ else ups)
      else some targ

def Names (cs : List Path) : Prop := ∀ c ∈ cs, c ≠ [] ∧ c ≠ dot ∧ c ≠ dotDot ∧ '/' ∉ c

theorem Names.tail {c : Path} {cs : List Path} (h : Names (c :: cs)) : Names cs :=
  fun d hd => h d (List.mem_cons_of_mem c hd)

theorem Names.append {cs ds : List Path} (hc : Names cs) (hd : Names ds) : Names (cs ++ ds) := by
  intro c h
  rcases List.mem_append.mp h with h | h
  · exact hc c h
  · exact hd c h

theorem stackOk_names {st : List Path} : StackOk true st ↔ Names st := by
  induction st with
  | nil => exact ⟨fun _ c hc => absurd hc List.not_mem_nil, fun _ => trivial⟩
  | cons c st ih =>
    constructor
    · rintro ⟨hne, hdot, hslash, hdotDot, hst⟩ d hd
      rcases List.mem_cons.mp hd with rfl | hd
      · exact ⟨hne, hdot, fun h => absurd (hdotDot h).1 (by decide), hslash⟩
      · exact ih.mp hst d hd
    · exact fun h => stackOk_of_names h

def absolute (cs : List Path) : Path := '/' :: ['/'].intercalate cs

theorem rooted_clean (p : Path) : rooted (clean p) = rooted p := by
  obtain ⟨st, hst, he⟩ := clean_eq_render p
  rw [he]
  cases rooted p with
  | true => rfl
  | false =>
    by_cases hne : st = []
    · rw [hne]
      decide
    · rw [render, if_neg (by decide), if_neg (List.reverse_ne_nil_iff.mpr hne)]
      exact rooted_intercalate hst hne

theorem clean_names {p : Path} (h : rooted p = true) : ∃ cs, Names cs ∧ clean p = absolute cs := by
  obtain ⟨st, hst, he⟩ := clean_eq_render p
  rw [h] at hst he
  refine ⟨st.reverse, ?_, he⟩
  intro c hc
  exact stackOk_names.mp hst c (List.mem_reverse.mp hc)

theorem clean_absolute {cs : List Path} (h : Names cs) : clean (absolute cs) = absolute cs := by
  have hst : StackOk true cs.reverse :=
    stackOk_names.mpr fun c hc => h c (List.mem_reverse.mp hc)
  have hrender := clean_render hst
  rw [List.reverse_reverse] at hrender
  exact hrender

theorem comps_absolute {cs : List Path} (h : Names cs) (hne : cs ≠ []) :
    comps (absolute cs) = [] :: cs := by
  have hsplit : (['/'].intercalate cs).splitOn '/' = cs :=
    List.splitOn_intercalate '/' (fun c hc => (h c hc).2.2.2) hne
  unfold comps absolute
  rw [List.splitOn_cons_eq_if_modifyHead, hsplit]
  simp

theorem absolute_inj {cs ds : List Path} (hc : Names cs) (hd : Names ds)
    (h : absolute cs = absolute ds) : cs = ds := by
  have hempty : ∀ {es : List Path}, Names es → absolute [] = absolute es → es = [] := by
    intro es hes habs
    by_contra hne
    obtain ⟨e, es', rfl⟩ := List.exists_cons_of_ne_nil hne
    have he := (hes e (List.mem_cons_self ..)).1
    cases es' with
    | nil =>
      simp [absolute] at habs
      exact he habs
    | cons e' es' => simp [absolute] at habs
  by_cases hcne : cs = []
  · subst hcne
    exact (hempty hd h).symm
  by_cases hdne : ds = []
  · subst hdne
    exact hempty hc h.symm
  have hcomps := congrArg comps h
  rw [comps_absolute hc hcne, comps_absolute hd hdne] at hcomps
  exact (List.cons.inj hcomps).2

theorem foldl_push_names {cs : List Path} (h : Names cs) :
    cs.foldl (push true) [] = cs.reverse := by
  have hst : StackOk true cs.reverse :=
    stackOk_names.mpr fun c hc => h c (List.mem_reverse.mp hc)
  have hfold := foldl_push_normal hst
  rw [List.reverse_reverse] at hfold
  exact hfold

theorem join_absolute {bs cs : List Path} (hb : Names bs) (hc : Names cs) :
    join (absolute bs) (['/'].intercalate cs) = absolute (bs ++ cs) := by
  have hbase : absolute bs ≠ [] := List.cons_ne_nil _ _
  unfold join
  rw [if_neg (fun h => hbase h.1), if_neg hbase]
  split_ifs with hempty
  · have hcs : cs = [] := by
      cases cs with
      | nil => rfl
      | cons c cs =>
        have hne := (hc c (List.mem_cons_self ..)).1
        cases cs <;> simp_all
    rw [hcs, List.append_nil, clean_absolute hb]
  · have hcs : cs ≠ [] := by
      rintro rfl
      exact hempty rfl
    have hsplit : (['/'].intercalate cs).splitOn '/' = cs :=
      List.splitOn_intercalate '/' (fun c h => (hc c h).2.2.2) hcs
    have hcomps : comps (absolute bs ++ '/' :: ['/'].intercalate cs) =
        comps (absolute bs) ++ cs := by
      unfold comps
      rw [List.splitOn_append_cons_self, hsplit]
    have hfirst : (comps (absolute bs)).foldl (push true) [] = bs.foldl (push true) [] := by
      by_cases hne : bs = []
      · rw [hne]
        decide
      · rw [comps_absolute hb hne]
        rfl
    have hrooted : rooted (absolute bs ++ '/' :: ['/'].intercalate cs) = true := rfl
    rw [clean, hrooted, hcomps, List.foldl_append, hfirst, ← List.foldl_append,
      foldl_push_names (hb.append hc), List.reverse_reverse]
    rfl

def below (base : Path) : Path := if base = ['/'] then base else base ++ ['/']

theorem below_nonroot {bs : List Path} (hb : Names bs) (hne : bs ≠ []) :
    below (absolute bs) = absolute bs ++ ['/'] := by
  have hroot : absolute bs ≠ ['/'] := by
    intro h
    exact hne (absolute_inj hb (fun c hc => absurd hc List.not_mem_nil) h)
  exact if_neg hroot

theorem below_absolute {bs ts : List Path} (hb : Names bs) (ht : ts ≠ []) :
    absolute (bs ++ ts) = below (absolute bs) ++ ['/'].intercalate ts := by
  by_cases hne : bs = []
  · subst hne
    rfl
  · rw [below_nonroot hb hne, absolute, Nested.labels_append hne ht, absolute]
    simp

theorem below_length (bs : List Path) :
    (absolute bs).length ≤ (below (absolute bs)).length := by
  unfold below
  split_ifs <;> simp

theorem at_or_below_iff {bs ts : List Path} (hb : Names bs) (ht : Names ts) :
    absolute ts = absolute bs ∨ below (absolute bs) <+: absolute ts ↔ bs <+: ts := by
  constructor
  · rintro (h | ⟨s, hs⟩)
    · exact absolute_inj ht hb h ▸ List.prefix_refl bs
    · by_cases hne : bs = []
      · rw [hne]
        exact List.nil_prefix
      rw [below_nonroot hb hne, List.append_assoc] at hs
      have htne : ts ≠ [] := by
        rintro rfl
        have hlength := congrArg List.length hs
        simp [absolute] at hlength
      have hcomps := congrArg comps hs
      rw [comps_absolute ht htne] at hcomps
      have hsplit : comps (absolute bs ++ (['/'] ++ s)) = comps (absolute bs) ++ comps s :=
        List.splitOn_append_cons_self ..
      rw [hsplit, comps_absolute hb hne] at hcomps
      exact ⟨comps s, (List.cons.inj hcomps).2⟩
  · rintro ⟨rest, rfl⟩
    by_cases hrest : rest = []
    · rw [hrest, List.append_nil]
      exact .inl rfl
    · rw [below_absolute hb hrest]
      exact .inr (List.prefix_append ..)

theorem takeWhile_name {c : Path} (hc : '/' ∉ c) (s : Path) :
    (c ++ '/' :: s).takeWhile (· != '/') = c ∧
      ((c ++ '/' :: s).dropWhile (· != '/')).drop 1 = s := by
  have hall : ∀ x ∈ c, (x != '/') = true := by
    intro x hx
    exact bne_iff_ne.mpr fun h => hc (h ▸ hx)
  rw [List.takeWhile_append_of_pos hall, List.dropWhile_append_of_pos hall]
  exact ⟨by simp, by simp⟩

theorem first_name {c : Path} {cs : List Path} (h : Names (c :: cs)) :
    ['/'].intercalate (c :: cs) ≠ [] ∧
      (['/'].intercalate (c :: cs)).takeWhile (· != '/') = c ∧
      ((['/'].intercalate (c :: cs)).dropWhile (· != '/')).drop 1 = ['/'].intercalate cs ∧
      (['/'].intercalate cs).length < (['/'].intercalate (c :: cs)).length := by
  obtain ⟨hne, -, -, hslash⟩ := h c (List.mem_cons_self ..)
  have hpos : 0 < c.length := List.length_pos_iff.mpr hne
  cases cs with
  | nil =>
    have hall : ∀ x ∈ c, (x != '/') = true := by
      intro x hx
      exact bne_iff_ne.mpr fun h => hslash (h ▸ hx)
    rw [List.intercalate_singleton, List.takeWhile_eq_self_iff.mpr hall,
      List.dropWhile_eq_nil_iff.mpr hall]
    exact ⟨hne, rfl, rfl, hpos⟩
  | cons d ds =>
    have hcons : ['/'].intercalate (c :: d :: ds) = c ++ '/' :: ['/'].intercalate (d :: ds) := by
      rw [List.intercalate_cons_cons]
      simp
    obtain ⟨htake, hdrop⟩ := takeWhile_name hslash (['/'].intercalate (d :: ds))
    rw [hcons, htake, hdrop]
    refine ⟨by simp, rfl, rfl, ?_⟩
    rw [List.length_append, List.length_cons]
    omega

theorem relLoop_common {n : ℕ} {bs ts : List Path} (hb : Names bs) (ht : Names (bs ++ ts))
    (hn : (['/'].intercalate bs).length ≤ n) :
    relLoop n (['/'].intercalate bs) (['/'].intercalate (bs ++ ts)) =
      ([], ['/'].intercalate ts, []) := by
  induction bs generalizing n with
  | nil => cases n <;> simp [relLoop]
  | cons b bs ih =>
    obtain ⟨hne, hword, hrest, hlt⟩ := first_name hb
    rw [List.cons_append] at ht ⊢
    obtain ⟨hne', hword', hrest', -⟩ := first_name ht
    obtain ⟨m, rfl⟩ := Nat.exists_eq_succ_of_ne_zero (show n ≠ 0 by omega)
    rw [ relLoop, if_neg (not_or.mpr ⟨hne, hne'⟩), hword, hword',
      if_neg (not_not.mpr rfl), hrest, hrest']
    exact ih hb.tail ht.tail (by omega)

theorem relLoop_differ {n : ℕ} {bs ts : List Path} (hb : Names bs) (ht : Names ts)
    (hnot : ¬bs <+: ts) (hn : (['/'].intercalate bs).length ≤ n) :
    ∃ base targ word, relLoop n (['/'].intercalate bs) (['/'].intercalate ts) =
      (base, targ, word) ∧ base ≠ [] ∧ word ≠ dotDot := by
  induction bs generalizing n ts with
  | nil => exact absurd List.nil_prefix hnot
  | cons b bs ih =>
    obtain ⟨hne, hword, hrest, hlt⟩ := first_name hb
    obtain ⟨m, rfl⟩ := Nat.exists_eq_succ_of_ne_zero (show n ≠ 0 by omega)
    cases ts with
    | nil =>
      refine ⟨['/'].intercalate (b :: bs), ['/'].intercalate [], [], ?_, hne, by decide⟩
      rw [relLoop, if_pos (.inr rfl)]
    | cons t ts =>
      obtain ⟨hne', hword', hrest', -⟩ := first_name ht
      rw [relLoop, if_neg (not_or.mpr ⟨hne, hne'⟩), hword, hword']
      by_cases heq : t = b
      · subst heq
        rw [if_neg (not_not.mpr rfl), hrest, hrest']
        refine ih hb.tail ht.tail ?_ (by omega)
        intro hbegin
        exact hnot (List.cons_prefix_cons.mpr ⟨rfl, hbegin⟩)
      · rw [if_pos heq]
        exact ⟨_, _, b, rfl, hne, (hb b (List.mem_cons_self ..)).2.2.1⟩

theorem relLoop_absolute {bs ts : List Path} (n : ℕ) :
    relLoop (n + 1) (absolute bs) (absolute ts) =
      relLoop n (['/'].intercalate bs) (['/'].intercalate ts) := by
  rw [relLoop]
  simp [absolute]

theorem rooted_absolute (cs : List Path) : rooted (absolute cs) = true := rfl

theorem absolute_ne_dot (cs : List Path) : absolute cs ≠ dot := by
  intro h
  exact absurd (List.cons.inj h).1 (by decide)

theorem rel_self (p : Path) : rel p p = some dot := if_pos rfl

theorem rel_below {bs ts : List Path} (hb : Names bs) (ht : Names (bs ++ ts)) (hne : ts ≠ []) :
    rel (absolute bs) (absolute (bs ++ ts)) = some (['/'].intercalate ts) := by
  have hdiff : absolute (bs ++ ts) ≠ absolute bs := by
    intro h
    have hlist := absolute_inj ht hb h
    exact hne (List.append_right_eq_self.mp hlist)
  have hloop := relLoop_common hb ht (Nat.le_refl _)
  unfold rel
  dsimp only
  rw [clean_absolute hb, clean_absolute ht, if_neg hdiff, if_neg (absolute_ne_dot bs),
    rooted_absolute, rooted_absolute, if_neg (not_not.mpr rfl)]
  have hlength : (absolute bs).length = (['/'].intercalate bs).length + 1 := rfl
  rw [hlength, relLoop_absolute, hloop]
  rfl

theorem rel_up {bs ts : List Path} (hb : Names bs) (ht : Names ts) (hnot : ¬bs <+: ts) :
    ∃ r, rel (absolute bs) (absolute ts) = some (dotDot ++ r) := by
  have hdiff : absolute ts ≠ absolute bs := by
    intro h
    exact hnot (absolute_inj ht hb h ▸ List.prefix_refl bs)
  obtain ⟨base, targ, word, hloop, hbase, hword⟩ := relLoop_differ hb ht hnot (Nat.le_refl _)
  unfold rel
  dsimp only
  rw [clean_absolute hb, clean_absolute ht, if_neg hdiff, if_neg (absolute_ne_dot bs),
    rooted_absolute, rooted_absolute, if_neg (not_not.mpr rfl)]
  have hlength : (absolute bs).length = (['/'].intercalate bs).length + 1 := rfl
  rw [hlength, relLoop_absolute, hloop]
  dsimp only
  rw [if_neg hword, if_pos hbase]
  split_ifs
  · exact ⟨_, by rw [List.append_assoc]⟩
  · exact ⟨_, rfl⟩

theorem rel_unrooted {base target : Path} (hb : rooted base = true) (ht : rooted target = false) :
    rel base target = none := by
  obtain ⟨bs, -, hbase⟩ := clean_names hb
  have htarget := rooted_clean target
  rw [ht] at htarget
  have hdiff : clean target ≠ absolute bs := by
    intro h
    rw [h, rooted_absolute] at htarget
    cases htarget
  unfold rel
  dsimp only
  rw [hbase, if_neg hdiff, if_neg (absolute_ne_dot bs), htarget, rooted_absolute]
  rfl

end SlashPath
