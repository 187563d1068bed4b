import RenoP.Lib.RelativePath
import RenoP.Paths.SanitizePath

/-!
# Paths below a directory

`IsSubPath` of `internal/utils/path.go`, and where it agrees with `SanitizePath`. The functions of
`path/filepath` read a path only up to its slashes and dots, so a byte of a path stands here as
the character with its code.
-/

namespace RenoP.Paths

open SlashPath (Path clean rel rooted Clean Names absolute below dotDot join)

def isSubPath (basePath targetPath : Path) : Bool :=
  match rel (clean basePath) (clean targetPath) with
  | none => false
  | some rel => !(dotDot.isPrefixOf rel || rel == dotDot)

def pathOf (s : Bytes) : Path := s.map fun b => Char.ofNat b.toNat

variable {base : Path}

theorem dotDot_below {bs ts : List Path} (hb : Names bs) :
    below (absolute bs) ++ dotDot <+: absolute (bs ++ ts) ↔ dotDot <+: ['/'].intercalate ts := by
  by_cases hne : ts = []
  · subst hne
    rw [List.append_nil]
    constructor
    · intro h
      have hlength := h.length_le
      have hbelow := SlashPath.below_length bs
      rw [List.length_append] at hlength
      simp only [dotDot, List.length_cons] at hlength
      omega
    · intro h
      have hlength := h.length_le
      simp [dotDot] at hlength
  · rw [SlashPath.below_absolute hb hne, List.prefix_append_right_inj]

theorem isSubPath_of_rel {target r : Path} (h : rel (clean base) (clean target) = some r) :
    isSubPath base target = true ↔ ¬dotDot <+: r := by
  unfold isSubPath
  rw [h]
  rw [Bool.not_eq_true', Bool.or_eq_false_iff, beq_eq_false_iff_ne, ← Bool.not_eq_true,
    List.isPrefixOf_iff_prefix]
  constructor
  · exact And.left
  · intro hnot
    exact ⟨hnot, fun heq => hnot (heq ▸ List.prefix_refl dotDot)⟩

theorem isSubPath_iff (hroot : rooted base = true) (hclean : Clean base) (target : Path) :
    isSubPath base target = true ↔ (clean target = base ∨ below base <+: clean target) ∧
      ¬below base ++ dotDot <+: clean target := by
  obtain ⟨bs, hbs, hbase⟩ := SlashPath.clean_names hroot
  have hfixed : base = absolute bs := hclean.symm.trans hbase
  cases htarget : rooted target with
  | false =>
    have htargetClean : rooted (clean target) = false := (SlashPath.rooted_clean target).trans htarget
    have hrel : rel (clean base) (clean target) = none :=
      SlashPath.rel_unrooted ((SlashPath.rooted_clean base).trans hroot) htargetClean
    have hno : isSubPath base target = false := by
      unfold isSubPath
      rw [hrel]
    rw [hno]
    constructor
    · intro h
      cases h
    · rintro ⟨heq | ⟨s, hs⟩, -⟩
      · rw [heq, hroot] at htargetClean
        cases htargetClean
      · rw [← hs, hfixed] at htargetClean
        unfold below at htargetClean
        split_ifs at htargetClean <;> cases htargetClean
  | true =>
    obtain ⟨ts, hts, htclean⟩ := SlashPath.clean_names htarget
    rw [htclean, hfixed, SlashPath.at_or_below_iff hbs hts]
    by_cases hbegin : bs <+: ts
    · obtain ⟨rest, rfl⟩ := hbegin
      rw [dotDot_below hbs]
      have hrel : rel (clean (absolute bs)) (clean target) =
          some (if rest = [] then SlashPath.dot else ['/'].intercalate rest) := by
        rw [SlashPath.clean_absolute hbs, htclean]
        split_ifs with hrest
        · rw [hrest, List.append_nil]
          exact SlashPath.rel_self _
        · exact SlashPath.rel_below hbs hts hrest
      rw [isSubPath_of_rel hrel]
      split_ifs with hrest
      · subst hrest
        simp [SlashPath.dot, dotDot]
      · simp
    · obtain ⟨r, hr⟩ := SlashPath.rel_up hbs hts hbegin
      rw [← SlashPath.clean_absolute hbs, ← htclean] at hr
      rw [isSubPath_of_rel hr]
      simp [hbegin]

theorem pathOf_joined (segs : List Bytes) :
    pathOf (joined segs) = ['/'].intercalate (segs.map pathOf) := by
  induction segs with
  | nil => rfl
  | cons seg segs ih =>
    cases segs with
    | nil => simp [joined]
    | cons next segs =>
      unfold joined pathOf at *
      rw [List.intercalate_cons_cons, List.map_append, ih]
      simp [slash]

theorem charOf_inj {a b : UInt8} (h : Char.ofNat a.toNat = Char.ofNat b.toNat) : a = b := by
  have hall : ∀ n < 256, (Char.ofNat n).toNat = n := by decide +kernel
  have hnat := congrArg Char.toNat h
  rw [hall _ a.toNat_lt, hall _ b.toNat_lt] at hnat
  exact UInt8.toNat_inj.mp hnat

theorem pathOf_inj {s t : Bytes} (h : pathOf s = pathOf t) : s = t :=
  List.map_injective_iff.mpr (fun _ _ => charOf_inj) h

theorem pathOf_names {segs : List Bytes} (h : ∀ s ∈ segs, SafeSegment s) :
    Names (segs.map pathOf) := by
  intro c hc
  obtain ⟨seg, hseg, rfl⟩ := List.mem_map.mp hc
  have hsafe := h seg hseg
  refine ⟨fun he => hsafe.nonempty (List.map_eq_nil_iff.mp he),
    fun he => hsafe.not_dot (pathOf_inj he), fun he => hsafe.not_dotDot (pathOf_inj he), ?_⟩
  intro hslash
  obtain ⟨b, hb, hchar⟩ := List.mem_map.mp hslash
  have hbslash : b = slash := charOf_inj hchar
  exact hsafe.no_slash (hbslash ▸ hb)

theorem pathOf_prefix {s : Bytes} : dotDot <+: pathOf s ↔ [dot, dot] <+: s := by
  have hdots : dotDot = pathOf [dot, dot] := rfl
  have htake : (pathOf s).take 2 = pathOf (s.take 2) := List.map_take.symm
  rw [hdots, List.prefix_iff_eq_take, List.prefix_iff_eq_take]
  constructor
  · intro h
    exact pathOf_inj (h.trans htake)
  · intro h
    exact (congrArg pathOf h).trans htake.symm

/-- The two guards agree unless a name below the base starts with two dots. -/
theorem path_guards_agree_iff (hroot : rooted base = true) (hclean : Clean base) :
    (∀ p q, sanitizePath p = some q →
      (isSubPath base (join base (pathOf q)) = true ↔ ¬[dot, dot] <+: q)) ∧
    ∀ target,
      ((isSubPath base target = true ↔ clean target = base ∨ below base <+: clean target) ↔
        ¬below base ++ dotDot <+: clean target) := by
  constructor
  · intro p q hq
    obtain ⟨segs, rfl, hsafe⟩ := sanitizePath_segments hq
    obtain ⟨bs, hbs, hbase⟩ := SlashPath.clean_names hroot
    have hfixed : base = absolute bs := hclean.symm.trans hbase
    have hnames := pathOf_names hsafe
    have hjoin := SlashPath.join_absolute hbs hnames
    rw [← pathOf_prefix, isSubPath_iff hroot hclean, hfixed, pathOf_joined, hjoin,
      SlashPath.clean_absolute (hbs.append hnames),
      SlashPath.at_or_below_iff hbs (hbs.append hnames), dotDot_below hbs]
    simp
  · intro target
    rw [isSubPath_iff hroot hclean]
    have hbelow : below base ++ dotDot <+: clean target → below base <+: clean target :=
      (List.prefix_append ..).trans
    tauto

theorem path_guards_agree_data :
    isSubPath ['/', 'd'] (join ['/', 'd'] (pathOf (ascii ['a', '.', 'j']))) = true := by
  have hguards := @path_guards_agree_iff ['/', 'd'] (by decide) (by decide)
  have hsanitized : sanitizePath (ascii ['a', '.', 'j']) = some (ascii ['a', '.', 'j']) := by
    decide +kernel
  exact (hguards.1 _ _ hsanitized).mpr (by decide +kernel)

/-- The name `..a` passes `SanitizePath` and lies below the base, and `IsSubPath` refuses it. -/
theorem dotted_name_refused :
    ¬∀ base, rooted base = true → Clean base →
      (∀ p q, sanitizePath p = some q → isSubPath base (join base (pathOf q)) = true) ∧
      ∀ target, isSubPath base target = true ↔
        clean target = base ∨ below base <+: clean target := by
  intro hclaim
  have hbase := hclaim ['/', 'd'] (by decide) (by decide)
  have hsanitized : sanitizePath (ascii ['.', '.', 'a']) = some (ascii ['.', '.', 'a']) := by
    decide +kernel
  have hrefused : isSubPath ['/', 'd'] (join ['/', 'd'] (pathOf (ascii ['.', '.', 'a']))) =
      false := by
    decide +kernel
  rw [hbase.1 _ _ hsanitized] at hrefused
  cases hrefused

end RenoP.Paths
