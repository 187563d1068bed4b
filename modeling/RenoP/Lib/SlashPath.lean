import Mathlib.Data.List.Basic

/-!
# Slash-separated paths (package path of the Go standard library)

Paths are character lists. `clean` is `path.Clean`: the components of the path are pushed on a stack
that drops empty and `.` components and lets `..` cancel the component below it; a rooted path drops
`..` at its root.
-/

namespace SlashPath

abbrev Path := List Char

def dot : Path := ['.']

def dotDot : Path := ['.', '.']

def cutLast : Path → Option (Path × Path)
  | [] => none
  | c :: cs =>
    match cutLast cs with
    | some (a, b) => some (c :: a, b)
    | none => if c = '/' then some ([], cs) else none

theorem cutLast_eq_none {p : Path} : cutLast p = none ↔ '/' ∉ p := by
  induction p with
  | nil => simp [cutLast]
  | cons c cs ih =>
    cases hc : cutLast cs with
    | some ab =>
      have hm : '/' ∈ cs := by
        by_contra hn
        rw [ih.mpr hn] at hc
        cases hc
      simp [cutLast, hc, hm]
    | none =>
      have hm : '/' ∉ cs := ih.mp hc
      by_cases h : c = '/'
      · simp [cutLast, hc, h]
      · simp [cutLast, hc, h, hm, Ne.symm h]

theorem cutLast_append {a b : Path} (hb : '/' ∉ b) : cutLast (a ++ '/' :: b) = some (a, b) := by
  induction a with
  | nil => simp [cutLast, cutLast_eq_none.mpr hb]
  | cons c cs ih => simp [cutLast, ih]

theorem cutLast_eq_some {p a b : Path} :
    cutLast p = some (a, b) ↔ p = a ++ '/' :: b ∧ '/' ∉ b := by
  constructor
  · induction p generalizing a with
    | nil => simp [cutLast]
    | cons c cs ih =>
      cases hc : cutLast cs with
      | some ab =>
        simp only [cutLast, hc, Option.some.injEq, Prod.mk.injEq]
        rintro ⟨rfl, rfl⟩
        obtain ⟨hcs, hs⟩ := ih hc
        exact ⟨by rw [hcs, List.cons_append], hs⟩
      | none =>
        simp only [cutLast, hc]
        split_ifs with h
        · simp only [Option.some.injEq, Prod.mk.injEq]
          rintro ⟨rfl, rfl⟩
          exact ⟨by rw [h, List.nil_append], cutLast_eq_none.mp hc⟩
        · simp
  · rintro ⟨rfl, hb⟩
    exact cutLast_append hb

theorem child_inj {p q b c : Path} (hb : '/' ∉ b) (hc : '/' ∉ c)
    (h : p ++ '/' :: b = q ++ '/' :: c) : p = q ∧ b = c := by
  have hp := cutLast_append (a := p) hb
  rw [h, cutLast_append hc] at hp
  simp only [Option.some.injEq, Prod.mk.injEq] at hp
  exact ⟨hp.1.symm, hp.2.symm⟩

def comps (p : Path) : List Path := p.splitOn '/'

def rooted (p : Path) : Bool := p.head? == some '/'

/-- One component met by `path.Clean`; the stack has its top first. -/
def push (r : Bool) (stack : List Path) (c : Path) : List Path :=
  if c = [] ∨ c = dot then stack
  else if c = dotDot then
    match stack with
    | [] => if r then [] else [dotDot]
    | top :: rest => if top = dotDot then dotDot :: top :: rest else rest
  else c :: stack

def render (r : Bool) (cs : List Path) : Path :=
  if r then '/' :: ['/'].intercalate cs
  else if cs = [] then dot else ['/'].intercalate cs

def clean (p : Path) : Path :=
  render (rooted p) ((comps p).foldl (push (rooted p)) []).reverse

def dir (p : Path) : Path :=
  match cutLast p with
  | some (a, _) => clean (a ++ ['/'])
  | none => clean []

def join (a b : Path) : Path :=
  if a = [] ∧ b = [] then []
  else if a = [] then clean b
  else if b = [] then clean a
  else clean (a ++ '/' :: b)

/-- What the stack of `path.Clean` holds: names and, at the bottom of an unrooted path, `..`. -/
def StackOk (r : Bool) : List Path → Prop
  | [] => True
  | c :: rest => c ≠ [] ∧ c ≠ dot ∧ '/' ∉ c ∧
      (c = dotDot → r = false ∧ ∀ d ∈ rest, d = dotDot) ∧ StackOk r rest

theorem StackOk.tail {r : Bool} {c : Path} {st : List Path} (h : StackOk r (c :: st)) :
    StackOk r st := h.2.2.2.2

theorem StackOk.noSlash {r : Bool} {st : List Path} (h : StackOk r st) : ∀ c ∈ st, '/' ∉ c := by
  induction st with
  | nil => simp
  | cons c st ih =>
    intro d hd
    rcases List.mem_cons.mp hd with rfl | hd
    · exact h.2.2.1
    · exact ih h.tail d hd

theorem StackOk.nonempty {r : Bool} {st : List Path} (h : StackOk r st) : ∀ c ∈ st, c ≠ [] := by
  induction st with
  | nil => simp
  | cons c st ih =>
    intro d hd
    rcases List.mem_cons.mp hd with rfl | hd
    · exact h.1
    · exact ih h.tail d hd

theorem push_ok {r : Bool} {st : List Path} {c : Path} (h : StackOk r st) (hc : '/' ∉ c) :
    StackOk r (push r st c) := by
  unfold push
  by_cases h1 : c = [] ∨ c = dot
  · rw [if_pos h1]
    exact h
  rw [if_neg h1]
  push Not at h1
  by_cases h2 : c = dotDot
  · rw [if_pos h2]
    cases st with
    | nil =>
      cases r with
      | true => exact trivial
      | false => exact ⟨by decide, by decide, by decide, fun _ => ⟨rfl, by simp⟩, trivial⟩
    | cons top rest =>
      by_cases ht : top = dotDot
      · obtain ⟨hr, hall⟩ := h.2.2.2.1 ht
        simp only [ht, if_true]
        refine ⟨by decide, by decide, by decide, fun _ => ⟨hr, ?_⟩, ht ▸ h⟩
        intro d hd
        rcases List.mem_cons.mp hd with hd | hd
        · exact hd
        · exact hall d hd
      · simp only [ht, if_false]
        exact h.tail
  · rw [if_neg h2]
    exact ⟨h1.1, h1.2, hc, fun hd => absurd hd h2, h⟩

theorem push_normal {r : Bool} {st : List Path} {c : Path} (h : StackOk r (c :: st)) :
    push r st c = c :: st := by
  obtain ⟨h1, h2, -, h4, -⟩ := h
  unfold push
  rw [if_neg (by simp [h1, h2])]
  by_cases hc : c = dotDot
  · obtain ⟨hr, hall⟩ := h4 hc
    rw [if_pos hc, hr]
    cases st with
    | nil => simp [hc]
    | cons top rest => simp [hc, hall top (List.mem_cons_self ..)]
  · rw [if_neg hc]

theorem foldl_push_ok {r : Bool} (cs st : List Path) (h : StackOk r st)
    (hs : ∀ c ∈ cs, '/' ∉ c) : StackOk r (cs.foldl (push r) st) := by
  induction cs generalizing st with
  | nil => exact h
  | cons c cs ih =>
    exact ih (push r st c) (push_ok h (hs c (List.mem_cons_self ..)))
      (fun d hd => hs d (List.mem_cons_of_mem _ hd))

theorem foldl_push_normal {r : Bool} {st : List Path} (h : StackOk r st) :
    st.reverse.foldl (push r) [] = st := by
  induction st with
  | nil => rfl
  | cons c st ih =>
    rw [List.reverse_cons, List.foldl_append, ih h.tail]
    exact push_normal h

theorem splitOn_noSep {α : Type} [DecidableEq α] (sep : α) (p : List α) :
    ∀ c ∈ p.splitOn sep, sep ∉ c := by
  induction p with
  | nil => simp
  | cons x xs ih =>
    rw [List.splitOn_cons_eq_if_modifyHead]
    by_cases hx : x = sep
    · simpa [hx] using ih
    · obtain ⟨hd, tl, he⟩ := List.exists_cons_of_ne_nil (List.splitOn_ne_nil sep xs)
      rw [he] at ih ⊢
      intro c hc
      simp only [beq_iff_eq, hx, if_false, List.modifyHead_cons, List.mem_cons] at hc
      rcases hc with rfl | hc
      · simp only [List.mem_cons, not_or]
        exact ⟨fun hc => hx hc.symm, ih hd (List.mem_cons_self ..)⟩
      · exact ih c (List.mem_cons_of_mem _ hc)

theorem comps_noSlash (p : Path) : ∀ c ∈ comps p, '/' ∉ c := splitOn_noSep '/' p

theorem clean_eq_render (p : Path) :
    ∃ st, StackOk (rooted p) st ∧ clean p = render (rooted p) st.reverse :=
  ⟨_, foldl_push_ok (comps p) [] trivial (comps_noSlash p), rfl⟩

theorem rooted_intercalate {r : Bool} {st : List Path} (h : StackOk r st) (hne : st ≠ []) :
    rooted (['/'].intercalate st.reverse) = false := by
  obtain ⟨c, cs, hcs⟩ := List.exists_cons_of_ne_nil (List.reverse_ne_nil_iff.mpr hne)
  have hmem : c ∈ st := by
    rw [← List.mem_reverse, hcs]
    exact List.mem_cons_self ..
  obtain ⟨x, xs, hx⟩ := List.exists_cons_of_ne_nil (h.nonempty c hmem)
  have hslash : x ≠ '/' := by
    intro he
    apply h.noSlash c hmem
    rw [hx, he]
    exact List.mem_cons_self ..
  rw [hcs, hx]
  cases cs with
  | nil => simp [rooted, hslash]
  | cons d ds => simp [rooted, hslash]

theorem comps_intercalate {r : Bool} {st : List Path} (h : StackOk r st) (hne : st ≠ []) :
    comps (['/'].intercalate st.reverse) = st.reverse :=
  List.splitOn_intercalate '/' (fun l hl => h.noSlash l (List.mem_reverse.mp hl))
    (List.reverse_ne_nil_iff.mpr hne)

theorem clean_render {r : Bool} {st : List Path} (h : StackOk r st) :
    clean (render r st.reverse) = render r st.reverse := by
  by_cases hne : st = []
  · subst hne
    cases r <;> decide
  cases r with
  | false =>
    have he : render false st.reverse = ['/'].intercalate st.reverse := by
      simp [render, hne]
    rw [clean, he, rooted_intercalate h hne, comps_intercalate h hne, foldl_push_normal h, ← he]
  | true =>
    have he : render true st.reverse = '/' :: ['/'].intercalate st.reverse := by
      simp [render]
    have hc : comps ('/' :: ['/'].intercalate st.reverse) = [] :: st.reverse := by
      have hs := comps_intercalate h hne
      unfold comps at hs ⊢
      rw [List.splitOn_cons_eq_if_modifyHead, hs]
      simp
    have hr : rooted ('/' :: ['/'].intercalate st.reverse) = true := rfl
    have hp : push true [] [] = [] := rfl
    rw [clean, he, hr, hc, List.foldl_cons, hp, foldl_push_normal h, ← he]

theorem clean_clean (p : Path) : clean (clean p) = clean p := by
  obtain ⟨st, hst, he⟩ := clean_eq_render p
  rw [he]
  exact clean_render hst

theorem stackOk_of_names {r : Bool} {st : List Path}
    (h : ∀ c ∈ st, c ≠ [] ∧ c ≠ dot ∧ c ≠ dotDot ∧ '/' ∉ c) : StackOk r st := by
  induction st with
  | nil => exact trivial
  | cons c st ih =>
    obtain ⟨hne, hdot, hdotDot, hslash⟩ := h c (List.mem_cons_self ..)
    exact ⟨hne, hdot, hslash, fun he => absurd he hdotDot,
      ih fun d hd => h d (List.mem_cons_of_mem c hd)⟩

theorem clean_names_joined {cs : List Path} (hne : cs ≠ [])
    (h : ∀ c ∈ cs, c ≠ [] ∧ c ≠ dot ∧ c ≠ dotDot ∧ '/' ∉ c) :
    clean (['/'].intercalate cs) = ['/'].intercalate cs := by
  have hok : StackOk false cs.reverse := stackOk_of_names fun c hc => h c (List.mem_reverse.mp hc)
  have hclean := clean_render hok
  rw [List.reverse_reverse] at hclean
  simpa [render, hne] using hclean

/-- A path that `path.Clean` leaves alone. -/
def Clean (p : Path) : Prop := clean p = p

instance (p : Path) : Decidable (Clean p) := inferInstanceAs (Decidable (_ = _))

theorem clean_dir (p : Path) : Clean (dir p) := by
  unfold dir
  split <;> exact clean_clean _

theorem intercalate_concat {α : Type} {sep : α} (cs : List (List α)) (c : List α)
    (hne : cs ≠ []) : [sep].intercalate (cs ++ [c]) = [sep].intercalate cs ++ sep :: c := by
  induction cs with
  | nil => exact absurd rfl hne
  | cons d ds ih =>
    cases ds with
    | nil => simp
    | cons e es =>
      have hi := ih (by simp)
      simp only [List.cons_append, List.intercalate_cons_cons] at hi ⊢
      rw [hi]
      simp

theorem Clean.parent {p b : Path} (hq : Clean (p ++ '/' :: b)) (hb : '/' ∉ b)
    (hp : p ≠ []) : Clean p ∧ b ≠ [] ∧ b ≠ dot := by
  obtain ⟨st, hst, he⟩ := clean_eq_render (p ++ '/' :: b)
  rw [hq] at he
  generalize rooted (p ++ '/' :: b) = r at hst he
  cases st with
  | nil =>
    cases r with
    | false =>
      have hm : '/' ∈ dot := by
        have : p ++ '/' :: b = dot := by simpa [render] using he
        rw [← this]
        simp
      exact absurd hm (by decide)
    | true =>
      have h1 : p ++ '/' :: b = ['/'] := by simpa [render] using he
      have h2 := congrArg List.length h1
      simp only [List.length_append, List.length_cons, List.length_nil] at h2
      exact absurd (List.length_eq_zero_iff.mp (by omega)) hp
  | cons c st =>
    by_cases hne : st = []
    · subst hne
      have hc := hst.2.2.1
      cases r with
      | false =>
        have h1 : p ++ '/' :: b = c := by simpa [render] using he
        exact absurd (by rw [← h1]; simp) hc
      | true =>
        have h1 : p ++ '/' :: b = [] ++ '/' :: c := by simpa [render] using he
        exact absurd (child_inj hb hc h1).1 hp
    · have hrev : st.reverse ≠ [] := List.reverse_ne_nil_iff.mpr hne
      have hr : render r (c :: st).reverse = render r st.reverse ++ '/' :: c := by
        rw [List.reverse_cons]
        cases r with
        | false => simp [render, hne, intercalate_concat _ c hrev]
        | true => simp [render, intercalate_concat _ c hrev]
      rw [hr] at he
      obtain ⟨hpe, hbe⟩ := child_inj hb hst.2.2.1 he
      refine ⟨?_, hbe ▸ hst.1, hbe ▸ hst.2.1⟩
      rw [hpe]
      exact clean_render hst.tail

theorem Clean.child {p b : Path} (hp : Clean p) (hdot : p ≠ dot) (hroot : p ≠ ['/']) (hb : b ≠ [])
    (hbd : b ≠ dot) (hbdd : b ≠ dotDot) (hs : '/' ∉ b) : Clean (p ++ '/' :: b) := by
  obtain ⟨st, hst, he⟩ := clean_eq_render p
  rw [hp] at he
  generalize rooted p = r at hst he
  have hne : st ≠ [] := by
    rintro rfl
    cases r with
    | false => exact hdot he
    | true => exact hroot he
  have hcons : StackOk r (b :: st) := ⟨hb, hbd, hs, fun h => absurd h hbdd, hst⟩
  have hrev : st.reverse ≠ [] := List.reverse_ne_nil_iff.mpr hne
  have hr : render r (b :: st).reverse = p ++ '/' :: b := by
    rw [List.reverse_cons, he]
    cases r with
    | false => simp [render, hne, intercalate_concat _ b hrev]
    | true => simp [render, intercalate_concat _ b hrev]
  rw [← hr]
  exact clean_render hcons

def Under (d q : Path) : Prop := (d ++ ['/']) <+: q

theorem under_iff {d q : Path} : Under d q ↔ ∃ s, q = d ++ '/' :: s := by
  constructor
  · rintro ⟨s, rfl⟩
    exact ⟨s, by simp⟩
  · rintro ⟨s, rfl⟩
    exact ⟨s, by simp⟩

theorem Under.length {d q : Path} (h : Under d q) : d.length < q.length := by
  obtain ⟨s, rfl⟩ := under_iff.mp h
  simp

theorem under_child {d p b : Path} (hb : '/' ∉ b) : Under d (p ++ '/' :: b) ↔ d = p ∨ Under d p := by
  constructor
  · intro h
    obtain ⟨s, hs⟩ := under_iff.mp h
    cases hc : cutLast s with
    | none => exact Or.inl (child_inj hb (cutLast_eq_none.mp hc) hs).1.symm
    | some ac =>
      obtain ⟨a, c⟩ := ac
      obtain ⟨rfl, hcs⟩ := cutLast_eq_some.mp hc
      have hd : p ++ '/' :: b = (d ++ '/' :: a) ++ '/' :: c := by
        rw [hs]
        simp
      rw [(child_inj hb hcs hd).1]
      exact Or.inr (under_iff.mpr ⟨a, rfl⟩)
  · rintro (rfl | h)
    · exact under_iff.mpr ⟨b, rfl⟩
    · obtain ⟨s, rfl⟩ := under_iff.mp h
      exact under_iff.mpr ⟨s ++ '/' :: b, by simp⟩

theorem Under.trans {a b c : Path} (h : Under a b) (h' : Under b c) : Under a c := by
  obtain ⟨s, rfl⟩ := under_iff.mp h
  obtain ⟨t, rfl⟩ := under_iff.mp h'
  exact under_iff.mpr ⟨s ++ '/' :: t, by simp⟩

end SlashPath
