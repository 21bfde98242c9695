import Synchronet.Xpdev.DirWrap

/-!
# What `_fullpath` resolves a path to (dirwrap.c)

The loop takes one component after another.  What it has passed are the directories from the
root to where it stands, so that the result names the same place.  A path that ends in `.` or
`..` and leads to the root leaves nothing at all, not even the slash.
-/

namespace Synchronet.Xpdev

open Paths (render enter Entry)

/-- The component that stays in the directory. -/
def dot : Str := [46]

/-- The directories from the root to the place that a path names. -/
def location (path : Str) : List Str := Paths.location slash dot dotdot path

/-- An absolute path without components that could be left out. -/
structure Resolved (path : Str) : Prop where
  absolute : path.head? = some slash
  no_empty : ¬ [slash, slash] <:+: path
  no_dot : ¬ slash :: dot ++ [slash] <:+: path
  no_dotdot : ¬ slash :: dotdot ++ [slash] <:+: path
  dot_end : ¬ slash :: dot <:+ path
  dotdot_end : ¬ slash :: dotdot <:+ path

/-- The empty component that a slash at the end leaves. -/
def trailing (cs : List Str) : List Str := if cs.getLast? = some [] then [[]] else []

theorem trailing_cons {c : Str} {cs : List Str} (h : c ≠ [] ∨ cs ≠ []) :
    trailing (c :: cs) = trailing cs := by
  cases cs with
  | nil =>
      have hc : c ≠ [] := by simpa using h
      simp [trailing, hc]
  | cons d cs => simp [trailing, List.getLast?_cons_cons]

theorem takeWhile_append_render {c : Str} (hc : slash ∉ c) (cs : List Str) :
    (c ++ render slash cs).takeWhile (· ≠ slash) = c := by
  rw [List.takeWhile_append_of_pos fun a ha ↦ by simpa using ne_of_mem_of_not_mem ha hc]
  cases cs with
  | nil => simp
  | cons d cs => simp

theorem parent_append (x : Str) {d : Str} (hd : slash ∉ d) : parent (x ++ slash :: d) = x := by
  have hrev : (x ++ slash :: d).reverse = d.reverse ++ slash :: x.reverse := by simp
  have hdrop : (d.reverse ++ slash :: x.reverse).dropWhile (· ≠ slash) = slash :: x.reverse := by
    rw [List.dropWhile_append_of_pos]
    · simp
    · intro a ha
      simpa using ne_of_mem_of_not_mem (List.mem_reverse.mp ha) hd
  rw [parent, List.rdropWhile, hrev, hdrop, List.reverse_cons, List.reverse_reverse,
    List.dropLast_concat]

theorem parent_render {dir : List Str} (hdir : ∀ d ∈ dir, slash ∉ d) :
    parent (render slash dir) = render slash dir.dropLast := by
  rcases List.eq_nil_or_concat dir with rfl | ⟨ds, d, rfl⟩
  · rfl
  · have hd : slash ∉ d := hdir d (by simp)
    simpa [Paths.render_append] using parent_append (render slash ds) hd

theorem resolve_append {c : Str} (hc : slash ∉ c) (target rest : Str) :
    resolve target (c ++ rest) = resolve (target ++ c) rest := by
  induction c generalizing target with
  | nil => simp
  | cons a c ih =>
      have ha : a ≠ slash := by
        rintro rfl
        simp at hc
      have hrest := ih (List.not_mem_of_not_mem_cons hc) (target ++ [a])
      rw [List.cons_append, resolve, if_pos ha, hrest, List.append_assoc, List.singleton_append]

/-! ## One component -/

variable {target c : Str} {cs : List Str}

theorem resolve_slash (target rest : Str) :
    resolve target (slash :: rest) =
      if rest.head? = some slash then resolve target rest
      else if rest.takeWhile (· ≠ slash) = dot then resolve target (rest.drop 1)
      else if rest.takeWhile (· ≠ slash) = dotdot then resolve (parent target) (rest.drop 2)
      else resolve (target ++ [slash]) rest := by
  rw [resolve, if_neg (by simp)]
  rfl

theorem resolve_empty (hcs : cs ≠ []) :
    resolve target (render slash ([] :: cs)) = resolve target (render slash cs) := by
  obtain ⟨d, ds, rfl⟩ := List.exists_cons_of_ne_nil hcs
  rw [Paths.render_cons, List.cons_append, List.nil_append, resolve_slash, if_pos]
  simp

theorem resolve_dot :
    resolve target (render slash (dot :: cs)) = resolve target (render slash cs) := by
  have hdot : slash ∉ dot := by decide
  have htake := takeWhile_append_render hdot cs
  rw [Paths.render_cons, List.cons_append, resolve_slash, if_neg, if_pos htake]
  · rfl
  · simp [dot, slash]

theorem resolve_dotdot :
    resolve target (render slash (dotdot :: cs)) =
      resolve (parent target) (render slash cs) := by
  have hup : slash ∉ dotdot := by decide
  have htake := takeWhile_append_render hup cs
  rw [Paths.render_cons, List.cons_append, resolve_slash, if_neg, if_neg, if_pos htake]
  · rfl
  · rw [htake]
    decide
  · simp [dotdot, slash]

theorem resolve_entry (hc : Entry slash dot dotdot c) :
    resolve target (render slash (c :: cs)) =
      resolve (target ++ slash :: c) (render slash cs) := by
  have htake := takeWhile_append_render hc.sep_notMem cs
  have hhead : (c ++ render slash cs).head? ≠ some slash := by
    obtain ⟨a, w, rfl⟩ := List.exists_cons_of_ne_nil hc.ne_nil
    have ha : a ≠ slash := by
      rintro rfl
      exact hc.sep_notMem (List.mem_cons_self ..)
    simpa using ha
  rw [Paths.render_cons, List.cons_append, resolve_slash, if_neg hhead, htake,
    if_neg hc.ne_here, if_neg hc.ne_up, resolve_append hc.sep_notMem, List.append_assoc,
    List.singleton_append]

/-! ## The whole path -/

/-- The loop enters the components one after another. -/
theorem resolve_render {dir : List Str} (hdir : ∀ d ∈ dir, Entry slash dot dotdot d)
    (hcs : ∀ c ∈ cs, slash ∉ c) :
    resolve (render slash dir) (render slash cs) =
      render slash (cs.foldl (enter dot dotdot) dir ++ trailing cs) := by
  induction cs generalizing dir with
  | nil => simp [resolve, trailing]
  | cons c cs ih =>
      have hc : slash ∉ c := hcs c (List.mem_cons_self ..)
      have hrest : ∀ d ∈ cs, slash ∉ d := fun d hd ↦ hcs d (List.mem_cons_of_mem c hd)
      have hnext := ih (Paths.entries_enter hdir hc) hrest
      rw [List.foldl_cons]
      by_cases hnil : c = []
      · subst hnil
        by_cases hlast : cs = []
        · subst hlast
          rw [Paths.enter_nil, Paths.render_append]
          simp [resolve_slash, resolve, trailing, dot, dotdot]
        · rw [Paths.enter_nil] at hnext ⊢
          rw [resolve_empty hlast, hnext, trailing_cons (.inr hlast)]
      · rw [trailing_cons (.inl hnil), ← hnext]
        by_cases hhere : c = dot
        · rw [hhere, Paths.enter_here, resolve_dot]
        · by_cases hup : c = dotdot
          · rw [hup, Paths.enter_up dotdot_ne_nil (by decide), resolve_dotdot,
              parent_render fun d hd ↦ (hdir d hd).sep_notMem]
          · have hentry : Entry slash dot dotdot c := ⟨hnil, hhere, hup, hc⟩
            rw [resolve_entry hentry, Paths.enter_entry hentry, Paths.render_append]
            simp

theorem splitOn_absolute {path : Str} (h : path.head? = some slash) :
    ∃ cs, path.splitOn slash = [] :: cs ∧ path = render slash cs ∧ ∀ c ∈ cs, slash ∉ c := by
  obtain ⟨w, cs, hsplit, happ, hfree⟩ := Paths.exists_splitOn_eq slash path
  obtain rfl : w = [] := by
    cases w with
    | nil => rfl
    | cons a w =>
        have ha : a = slash := by simpa [happ] using h
        simp [ha] at hfree
  exact ⟨cs, hsplit, happ, fun c hc ↦ hfree c (List.mem_cons_of_mem [] hc)⟩

theorem trailing_eq_nil_or (cs : List Str) : trailing cs = [] ∨ trailing cs = [[]] := by
  by_cases h : cs.getLast? = some []
  · exact .inr (if_pos h)
  · exact .inl (if_neg h)

/-! ## The result -/

section Result

variable {dir last : List Str}

theorem splitOn_result (hdir : ∀ d ∈ dir, Entry slash dot dotdot d)
    (hlast : last = [] ∨ last = [[]]) :
    (render slash (dir ++ last)).splitOn slash = [] :: (dir ++ last) := by
  refine Paths.splitOn_append_render List.not_mem_nil fun d hd ↦ ?_
  rcases List.mem_append.mp hd with hd | hd
  · exact (hdir d hd).sep_notMem
  · rcases hlast with rfl | rfl
    · simp at hd
    · simp [List.mem_singleton.mp hd]

/-- Between two slashes of the result stands an entry. -/
theorem inner_entry (hdir : ∀ d ∈ dir, Entry slash dot dotdot d)
    (hlast : last = [] ∨ last = [[]]) {w : Str} (hw : slash ∉ w)
    (h : slash :: w ++ [slash] <:+: render slash (dir ++ last)) :
    Entry slash dot dotdot w := by
  have hinner := Paths.mem_inner_of_infix hw h
  rw [splitOn_result hdir hlast, List.tail_cons] at hinner
  apply hdir
  rcases hlast with rfl | rfl
  · rw [List.append_nil] at hinner
    exact List.mem_of_mem_dropLast hinner
  · simpa using hinner

/-- What follows the last slash of the result is an entry, or nothing. -/
theorem end_entry (hdir : ∀ d ∈ dir, Entry slash dot dotdot d)
    (hlast : last = [] ∨ last = [[]]) {w : Str} (hw : slash ∉ w)
    (h : slash :: w <:+ render slash (dir ++ last)) :
    w = [] ∨ Entry slash dot dotdot w := by
  have hend := Paths.mem_tail_of_suffix hw h
  rw [splitOn_result hdir hlast, List.tail_cons] at hend
  rcases List.mem_append.mp hend with hd | hd
  · exact .inr (hdir w hd)
  · rcases hlast with rfl | rfl
    · simp at hd
    · exact .inl (by simpa using hd)

theorem resolved_render_iff (hdir : ∀ d ∈ dir, Entry slash dot dotdot d)
    (hlast : last = [] ∨ last = [[]]) :
    Resolved (render slash (dir ++ last)) ↔ dir ++ last ≠ [] := by
  constructor
  · intro h hnil
    simpa [hnil] using h.absolute
  · intro hne
    have hdot : slash ∉ dot := by decide
    have hup : slash ∉ dotdot := by decide
    refine ⟨?_, ?_, ?_, ?_, ?_, ?_⟩
    · obtain ⟨d, ds, hds⟩ := List.exists_cons_of_ne_nil hne
      simp [hds]
    · intro h
      exact (inner_entry hdir hlast List.not_mem_nil h).ne_nil rfl
    · intro h
      exact (inner_entry hdir hlast hdot h).ne_here rfl
    · intro h
      exact (inner_entry hdir hlast hup h).ne_up rfl
    · intro h
      rcases end_entry hdir hlast hdot h with hnil | hentry
      · simp [dot] at hnil
      · exact hentry.ne_here rfl
    · intro h
      rcases end_entry hdir hlast hup h with hnil | hentry
      · exact dotdot_ne_nil hnil
      · exact hentry.ne_up rfl

theorem location_render (hdir : ∀ d ∈ dir, Entry slash dot dotdot d)
    (hlast : last = [] ∨ last = [[]]) : location (render slash (dir ++ last)) = dir := by
  rw [location, Paths.location, splitOn_result hdir hlast, List.foldl_cons, Paths.enter_nil,
    List.foldl_append, Paths.foldl_enter_entries hdir, List.nil_append]
  rcases hlast with rfl | rfl
  · rfl
  · rfl

end Result

/-- The components leave nothing just if they lead to the root and the last one is `.` or `..`. -/
theorem entered_eq_nil_iff (hcs : cs ≠ []) :
    cs.foldl (enter dot dotdot) [] ++ trailing cs = [] ↔
      cs.foldl (enter dot dotdot) [] = [] ∧
        (cs.getLast? = some dot ∨ cs.getLast? = some dotdot) := by
  rw [List.append_eq_nil_iff]
  refine and_congr_right fun hroot ↦ ?_
  obtain ⟨ds, c, rfl⟩ := (List.eq_nil_or_concat cs).resolve_left hcs
  simp only [List.concat_eq_append, List.getLast?_concat, Option.some.injEq, trailing] at hroot ⊢
  constructor
  · intro h
    have hnil : c ≠ [] := by
      rintro rfl
      simp at h
    by_contra hdots
    rw [not_or] at hdots
    simp [enter, hnil, hdots.1, hdots.2] at hroot
  · rintro (rfl | rfl)
    · rfl
    · rfl

/-- `_fullpath` resolves an absolute path, unless the path leads to the root and ends in `.` or
`..`. -/
theorem fullpath_resolved_iff (env : Environment) (size : ℕ) (path : Str)
    (habs : path.head? = some slash) (hsize : path.length < size) :
    (∃ p, fullpath env size path = some p ∧ Resolved p ∧ location p = location path) ↔
      location path ≠ [] ∨
        ((path.splitOn slash).getLast? ≠ some dot ∧
          (path.splitOn slash).getLast? ≠ some dotdot) := by
  obtain ⟨cs, hsplit, hpath, hfree⟩ := splitOn_absolute habs
  have hcs : cs ≠ [] := by
    rintro rfl
    simp [hpath] at habs
  have hentries : ∀ d ∈ cs.foldl (enter dot dotdot) [], Entry slash dot dotdot d :=
    Paths.entries_foldl_enter (by simp) hfree
  have hlocation : location path = cs.foldl (enter dot dotdot) [] := by
    rw [location, Paths.location, hsplit, List.foldl_cons, Paths.enter_nil]
  have hresult : fullpath env size path =
      some (render slash (cs.foldl (enter dot dotdot) [] ++ trailing cs)) := by
    have hroot : ∀ d ∈ ([] : List Str), Entry slash dot dotdot d := by simp
    have hresolve := resolve_render hroot hfree
    rw [fullpath_absolute habs, List.take_of_length_le (by omega), ← hresolve, ← hpath]
    rfl
  have hlast : (path.splitOn slash).getLast? = cs.getLast? := by
    obtain ⟨d, ds, rfl⟩ := List.exists_cons_of_ne_nil hcs
    rw [hsplit, List.getLast?_cons_cons]
  have hnonempty := resolved_render_iff hentries (trailing_eq_nil_or cs)
  rw [ne_eq, entered_eq_nil_iff hcs, not_and_or, not_or] at hnonempty
  rw [hlocation, hlast, ne_eq, ← hnonempty]
  constructor
  · rintro ⟨p, hp, hresolved, -⟩
    obtain rfl := Option.some.inj (hresult.symm.trans hp)
    exact hresolved
  · intro hresolved
    exact ⟨_, hresult, hresolved, location_render hentries (trailing_eq_nil_or cs)⟩

/-- The path `/a/../b` is resolved in ten bytes. -/
theorem fullpath_resolved_iff_up :
    ∃ p, fullpath ⟨none, none⟩ 10 [47, 97, 47, 46, 46, 47, 98] = some p ∧ Resolved p ∧
      location p = location [47, 97, 47, 46, 46, 47, 98] :=
  (fullpath_resolved_iff ⟨none, none⟩ 10 [47, 97, 47, 46, 46, 47, 98] rfl (by decide)).mpr
    (.inl (by decide +kernel))

/-- Of `/..` nothing is left. -/
theorem fullpath_not_resolved :
    ¬ ∀ (env : Environment) (size : ℕ) (path : Str), path.head? = some slash →
      path.length < size →
      ∃ p, fullpath env size path = some p ∧ Resolved p ∧ location p = location path := by
  intro h
  obtain ⟨p, hp, hresolved, -⟩ := h ⟨none, none⟩ 10 [47, 46, 46] rfl (by decide)
  have hempty : fullpath ⟨none, none⟩ 10 [47, 46, 46] = some [] := by
    simp [fullpath, resolve, slash, dotdot, parent]
  obtain rfl := Option.some.inj (hempty.symm.trans hp)
  simpa using hresolved.absolute

end Synchronet.Xpdev
