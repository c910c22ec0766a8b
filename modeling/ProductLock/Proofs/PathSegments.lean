import Mathlib.Data.List.Basic
import ProductLock.Files.Path
import ProductLock.Text

/-!
# The segments of a path

Cutting a path at its slashes loses nothing, and a path can be put together from any segments
without slashes. So two things can be said of a path by its segments. Files of one directory have
paths that differ in their last segment alone, however the directory was written. And the directory
of such a path is written with the segments before the last, save for some at their end that name
nothing of their own; whatever is true of the beginning of a path stays true of it.
-/

namespace ProductLock.Path

theorem toList_of_mem_segments {path s : String} (h : s ∈ segments path) :
    s.toList ∈ path.toList.splitOn '/' := by
  obtain ⟨piece, hp, rfl⟩ := List.mem_map.1 h
  rwa [String.toList_ofList]

theorem slash_not_mem_of_mem_segments {path s : String} (h : s ∈ segments path) :
    '/' ∉ s.toList :=
  Text.not_mem_of_mem_splitOn (toList_of_mem_segments h)

theorem map_toList_segments (path : String) :
    (segments path).map String.toList = path.toList.splitOn '/' := by
  rw [segments, List.map_map]
  exact (List.map_congr_left fun _ _ => String.toList_ofList).trans (List.map_id _)

theorem intercalate_segments (path : String) : "/".intercalate (segments path) = path := by
  rw [← String.toList_inj, String.toList_intercalate, map_toList_segments]
  exact List.intercalate_splitOn '/'

theorem segments_intercalate {l : List String} (hne : l ≠ []) (h : ∀ s ∈ l, '/' ∉ s.toList) :
    segments ("/".intercalate l) = l := by
  have hmap : l.map String.toList ≠ [] := fun he => hne (List.map_eq_nil_iff.1 he)
  have hcut : ("/".intercalate l).toList.splitOn '/' = l.map String.toList := by
    rw [String.toList_intercalate]
    exact List.splitOn_intercalate '/' (List.forall_mem_map.2 h) hmap
  rw [segments, hcut, List.map_map]
  exact (List.map_congr_left fun _ _ => String.ofList_toList).trans (List.map_id _)

theorem segments_append_slash (a b : String) :
    segments (a ++ "/" ++ b) = segments a ++ segments b := by
  have hlist : (a ++ "/" ++ b).toList = a.toList ++ '/' :: b.toList := by simp
  rw [segments, hlist, List.splitOn_append_cons_self, List.map_append]
  rfl

theorem segments_of_slash_not_mem {s : String} (h : '/' ∉ s.toList) : segments s = [s] := by
  rw [segments, List.splitOn_eq_singleton h, List.map_singleton, String.ofList_toList]

/-! ## Names in a directory -/

/-- The text is a segment that names something of its own. -/
structure IsName (s : String) : Prop where
  ne_empty : s ≠ ""
  ne_here : s ≠ "."
  ne_up : s ≠ ".."
  slash : '/' ∉ s.toList

theorem isAbsolute_of_slash_not_mem {s : String} (h : '/' ∉ s.toList) : isAbsolute s = false := by
  rw [isAbsolute, beq_eq_false_iff_ne]
  exact fun he => h (List.mem_of_mem_head? he)

theorem isAbsolute_append {a b : String} (h : a ≠ "") : isAbsolute (a ++ b) = isAbsolute a := by
  rw [isAbsolute, isAbsolute, String.toList_append,
    List.head?_append_of_ne_nil _ fun he => h (String.toList_eq_nil_iff.1 he)]

theorem exists_of_endsInSlash {path : String} (h : endsInSlash path = true) :
    ∃ base, path = base ++ "/" := by
  obtain ⟨base, hbase⟩ := List.getLast?_eq_some_iff.1 (beq_iff_eq.1 h)
  refine ⟨String.ofList base, ?_⟩
  rw [← String.toList_inj, hbase, String.toList_append, String.toList_ofList]
  rfl

/-- All paths of a directory share their segments but for the last, and they start in one place. -/
theorem exists_way (root : String) :
    ∃ way, ∀ name, '/' ∉ name.toList → segments (join root name) = way ++ [name] ∧
      isAbsolute (join root name) = isAbsolute root := by
  have hjoin {name : String} (h : '/' ∉ name.toList) : join root name =
      if root.isEmpty || endsInSlash root then root ++ name else root ++ "/" ++ name := by
    rw [join, isAbsolute_of_slash_not_mem h, if_neg (by decide)]
  by_cases hempty : root = ""
  · subst hempty
    refine ⟨[], fun name h => ?_⟩
    have hname : join "" name = name := (hjoin h).trans (String.empty_append)
    rw [hname]
    exact ⟨segments_of_slash_not_mem h, isAbsolute_of_slash_not_mem h⟩
  · have hisEmpty : root.isEmpty = false :=
      Bool.eq_false_iff.2 fun he => hempty (String.isEmpty_iff.1 he)
    by_cases hslash : endsInSlash root = true
    · obtain ⟨base, hroot⟩ := exists_of_endsInSlash hslash
      refine ⟨segments base, fun name h => ?_⟩
      rw [hjoin h, hslash, Bool.or_true, if_pos rfl]
      refine ⟨?_, isAbsolute_append hempty⟩
      rw [hroot, segments_append_slash, segments_of_slash_not_mem h]
    · refine ⟨segments root, fun name h => ?_⟩
      rw [hjoin h, hisEmpty, Bool.false_or, if_neg hslash, segments_append_slash,
        segments_of_slash_not_mem h, String.append_assoc]
      exact ⟨rfl, isAbsolute_append hempty⟩

theorem join_ne_empty (h : IsName name) : join root name ≠ "" := fun he => by
  obtain ⟨way, hway⟩ := exists_way root
  have hsegments := (hway name h.slash).1
  have hempty : segments "" = [] ++ [""] := rfl
  rw [he, hempty] at hsegments
  have hlast : [""] = [name] := (List.append_inj' hsegments rfl).2
  exact h.ne_empty (List.singleton_inj.1 hlast).symm

/-! ## The directory of a path -/

theorem dropVoid_suffix (l : List String) : dropVoid l <:+ l := by
  induction l with
  | nil => exact List.suffix_rfl
  | cons s rest ih =>
      unfold dropVoid
      split
      next => exact ih.trans (List.suffix_cons s rest)
      next => exact List.suffix_rfl

theorem dropVoid_head_ne {l rest : List String} {s : String} (h : dropVoid l = s :: rest) :
    s ≠ "" := by
  induction l with
  | nil => cases h
  | cons x l ih =>
      unfold dropVoid at h
      split at h
      next => exact ih h
      next hx =>
        obtain ⟨rfl, _⟩ := List.cons.inj h
        exact fun he => hx (.inl he)

theorem dropVoid_cons_of_isName {s : String} (h : IsName s) (rest : List String) :
    dropVoid (s :: rest) = s :: rest :=
  if_neg fun hv => hv.elim h.ne_empty fun hv => h.ne_here hv.1

variable {path name : String} {way : List String}

theorem dropVoid_segments (hs : segments path = way ++ [name]) (hn : IsName name) :
    dropVoid (segments path).reverse = name :: way.reverse := by
  rw [hs, List.reverse_append, List.reverse_singleton, List.singleton_append,
    dropVoid_cons_of_isName hn]

theorem parent?_of_nil (hs : segments path = way ++ [name]) (hn : IsName name)
    (hway : dropVoid way.reverse = []) :
    parent? path = some (if isAbsolute path then "/" else "") := by
  rw [parent?, dropVoid_segments hs hn]
  simp only [hway]

theorem parent?_of_ne_nil (hs : segments path = way ++ [name]) (hn : IsName name)
    (hway : dropVoid way.reverse ≠ []) :
    parent? path = some ("/".intercalate (dropVoid way.reverse).reverse) := by
  rw [parent?, dropVoid_segments hs hn]
  dsimp only
  split
  next he => exact absurd he hway
  next => rfl

theorem directory_of_nil (hs : segments path = way ++ [name]) (hn : IsName name)
    (hway : dropVoid way.reverse = []) :
    directory path = if isAbsolute path then "/" else "." := by
  rw [directory, parent?_of_nil hs hn hway]
  cases isAbsolute path <;> rfl

/-- The directory of a path is written with the segments before the last, up to the last of these
that names something, and the path goes on from there. -/
theorem directory_of_ne_nil (hs : segments path = way ++ [name]) (hn : IsName name)
    (hway : dropVoid way.reverse ≠ []) :
    segments (directory path) = (dropVoid way.reverse).reverse ∧ directory path ≠ "" ∧
      ∃ rest, path = directory path ++ rest := by
  have hne : (dropVoid way.reverse).reverse ≠ [] := fun he => hway (List.reverse_eq_nil_iff.1 he)
  obtain ⟨voids, hvoids⟩ : ∃ voids, way = (dropVoid way.reverse).reverse ++ voids := by
    obtain ⟨voids, hvoids⟩ := List.reverse_prefix.2 (dropVoid_suffix way.reverse)
    exact ⟨voids, by rw [hvoids, List.reverse_reverse]⟩
  have hslash : ∀ s ∈ (dropVoid way.reverse).reverse, '/' ∉ s.toList := fun s hmem => by
    have hmem : s ∈ segments path := by
      rw [hs, hvoids]
      exact List.mem_append_left _ (List.mem_append_left _ hmem)
    exact slash_not_mem_of_mem_segments hmem
  have hsegments := segments_intercalate hne hslash
  have hempty : "/".intercalate (dropVoid way.reverse).reverse ≠ "" := fun he => by
    have hsegment : segments "" = [""] := rfl
    rw [he, hsegment] at hsegments
    have hlast := List.reverse_eq_iff.1 hsegments.symm
    exact dropVoid_head_ne hlast rfl
  have hdirectory : directory path = "/".intercalate (dropVoid way.reverse).reverse := by
    rw [directory, parent?_of_ne_nil hs hn hway]
    split
    next h => cases h
    next h => exact absurd (Option.some.inj h) hempty
    next h => exact (Option.some.inj h).symm
  rw [hdirectory]
  refine ⟨hsegments, hempty, "/" ++ "/".intercalate (voids ++ [name]), ?_⟩
  have hpath := intercalate_segments path
  rw [hs, hvoids, List.append_assoc, String.intercalate_append_of_ne_nil hne (by simp),
    String.append_assoc] at hpath
  exact hpath.symm

end ProductLock.Path
