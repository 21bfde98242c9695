import Synchronet.Lib.Paths
import Synchronet.Xpdev.Genwrap

/-!
# Path names (dirwrap.c)

`_fullpath` resolves empty components, `.` and `..` in place.  The string on which it works is
kept in two parts, what lies before `out` and what lies from there on.
-/

namespace Synchronet.Xpdev

open Paths (ups)

def slash : UInt8 := 47

/-- The component that leads to the parent directory. -/
def dotdot : Str := [46, 46]

/-- The part of `target` before its last slash, if any. -/
def parent (target : Str) : Str := (target.rdropWhile (· ≠ slash)).dropLast

/-- The loop of `_fullpath`, with `target` before `out` and the rest from there on. -/
def resolve (target : Str) : Str → Str
  | [] => target
  | c :: rest =>
      if c ≠ slash then resolve (target ++ [c]) rest
      else if rest.head? = some slash then resolve target rest
      else if rest.takeWhile (· ≠ slash) = [46] then resolve target (rest.drop 1)
      else if rest.takeWhile (· ≠ slash) = dotdot then resolve (parent target) (rest.drop 2)
      else resolve (target ++ [c]) rest
  termination_by rest => rest.length
  decreasing_by all_goals simp only [List.length_drop, List.length_cons]; omega

/-- What `getcwd` and the variable `HOME` give. -/
structure Environment where
  cwd : Option Str
  home : Option Str

/-- `_fullpath` into a buffer of `size` bytes; `none` stands for a null pointer. -/
def fullpath (env : Environment) (size : ℕ) (path : Str) : Option Str :=
  match path with
  | 47 :: _ => some (resolve [] (path.take (size - 1)))
  | 126 :: _ => do
      let home ← env.home
      if size ≤ home.length + path.length then none else some (resolve home (path.drop 1))
  | _ => do
      let cwd ← env.cwd
      if size ≤ cwd.length + path.length then none else some (resolve cwd (slash :: path))

/-- `isabspath`, which compares its argument with a path that may be a null pointer. -/
def isabspath (env : Environment) (maxPath : ℕ) (filename : Str) : Option Bool :=
  (fullpath env (maxPath + 1) filename).map (stricmp filename)

/-- `isdir`; `stat` tells whether there is a file of the name, and whether it is a directory. -/
def isdir (stat : Str → Option Bool) (maxPath : ℕ) (filename : Str) : Bool :=
  let path := safecopy (maxPath + 1) filename
  stat (if 1 < path.length ∧ path.getLast? = some slash then path.dropLast else path) = some true

/-! ## What is left of a resolved path -/

theorem dotdot_ne_nil : dotdot ≠ [] := by decide

theorem ups_dotdot_nil : ups slash dotdot [] = 0 := Paths.ups_nil dotdot_ne_nil

theorem slash_notMem_takeWhile (s : Str) : slash ∉ s.takeWhile (· ≠ slash) := by
  intro h
  simpa using List.mem_takeWhile_imp h

theorem parent_eq_nil_or (target : Str) :
    parent target = [] ∨ ∃ w, target = parent target ++ slash :: w := by
  obtain ⟨w, hw⟩ : target.rdropWhile (· ≠ slash) <+: target :=
    List.rdropWhile_prefix _ target
  rcases List.eq_nil_or_concat (target.rdropWhile (· ≠ slash)) with hnil | ⟨d, c, hd⟩
  · left
    rw [parent, hnil, List.dropLast_nil]
  · have hne : target.rdropWhile (· ≠ slash) ≠ [] := by
      rw [hd, List.concat_eq_append]
      exact List.concat_ne_nil c d
    have hlast := List.rdropWhile_last_not (· ≠ slash) target hne
    simp only [hd, List.concat_eq_append] at hlast
    obtain rfl : c = slash := by simpa using hlast
    right
    refine ⟨w, ?_⟩
    rw [parent, hd, List.concat_eq_append, List.dropLast_concat]
    rw [hd, List.concat_eq_append, List.append_assoc, List.singleton_append] at hw
    exact hw.symm

theorem ups_parent (target : Str) :
    ups slash dotdot (parent target) ≤ ups slash dotdot target := by
  rcases parent_eq_nil_or target with hnil | ⟨w, hw⟩
  · rw [hnil, ups_dotdot_nil]
    exact Nat.zero_le _
  · calc ups slash dotdot (parent target)
        ≤ ups slash dotdot (parent target ++ slash :: w) := Paths.ups_le_of_append_sep _ w
      _ = ups slash dotdot target := by rw [← hw]

theorem length_parent_le (target : Str) : (parent target).length ≤ target.length := by
  have h := (List.rdropWhile_prefix (· ≠ slash) target).length_le
  simp only [parent, List.length_dropLast]
  omega

/-- Behind a component the rest is empty or starts with a slash. -/
theorem takeWhile_drop_component {rest w : Str} (h : rest.takeWhile (· ≠ slash) = w) :
    (rest.drop w.length).takeWhile (· ≠ slash) = [] := by
  have hdrop : rest.drop w.length = rest.dropWhile (· ≠ slash) := by
    conv_lhs => rw [← List.takeWhile_append_dropWhile (p := (· ≠ slash)) (l := rest), h]
    exact List.drop_left
  rw [hdrop, List.takeWhile_eq_nil_iff]
  intro hpos
  simpa using List.dropWhile_get_zero_not (· ≠ slash) rest hpos

/-- No component leads up once the loop has passed it.  The component at which the loop stands
is the one that is tested. -/
theorem ups_resolve (target rest : Str)
    (h : ups slash dotdot (target ++ rest.takeWhile (· ≠ slash)) = 0) :
    ups slash dotdot (resolve target rest) = 0 := by
  fun_induction resolve target rest with
  | case1 target => simpa using h
  | case2 target c rest hc ih =>
      apply ih
      simpa [hc] using h
  | case3 target c rest hc hhead ih =>
      apply ih
      obtain ⟨r, rfl⟩ : ∃ r, rest = slash :: r := by
        cases rest with
        | nil => simp at hhead
        | cons d r => exact ⟨r, by simpa using hhead⟩
      simpa [not_not.mp hc] using h
  | case4 target c rest hc hhead hdot ih =>
      apply ih
      have hend : (rest.drop 1).takeWhile (· ≠ slash) = [] := takeWhile_drop_component hdot
      rw [hend]
      simpa [not_not.mp hc] using h
  | case5 target c rest hc hhead hdot hup ih =>
      apply ih
      have hend : (rest.drop 2).takeWhile (· ≠ slash) = [] := takeWhile_drop_component hup
      rw [hend, List.append_nil]
      have htarget : ups slash dotdot target = 0 := by simpa [not_not.mp hc] using h
      have := ups_parent target
      omega
  | case6 target c rest hc hhead hdot hup ih =>
      apply ih
      have htarget : ups slash dotdot target = 0 := by simpa [not_not.mp hc] using h
      rw [not_not.mp hc, List.append_assoc, List.singleton_append, Paths.ups_append_sep, htarget,
        Paths.ups_of_notMem (slash_notMem_takeWhile rest), if_neg hup]

theorem length_resolve_le (target rest : Str) :
    (resolve target rest).length ≤ target.length + rest.length := by
  fun_induction resolve target rest with
  | case1 target => simp
  | case2 target c rest hc ih => simp at ih ⊢; omega
  | case3 target c rest hc hhead ih => simp; omega
  | case4 target c rest hc hhead hdot ih => simp at ih ⊢; omega
  | case5 target c rest hc hhead hdot hup ih =>
      have := length_parent_le target
      simp at ih ⊢
      omega
  | case6 target c rest hc hhead hdot hup ih => simp at ih ⊢; omega

theorem fullpath_absolute {env : Environment} {size : ℕ} {path : Str}
    (h : path.head? = some slash) :
    fullpath env size path = some (resolve [] (path.take (size - 1))) := by
  obtain ⟨rest, rfl⟩ : ∃ rest, path = 47 :: rest := by
    cases path with
    | nil => simp at h
    | cons c rest => exact ⟨rest, by simpa [slash] using h⟩
  rfl

theorem ups_resolve_absolute {path : Str} (h : path.head? = some slash) (n : ℕ) :
    ups slash dotdot (resolve [] (path.take n)) = 0 := by
  apply ups_resolve
  have hnil : (path.take n).takeWhile (· ≠ slash) = [] := by
    cases path with
    | nil => simp
    | cons c rest =>
        obtain rfl : c = slash := by simpa using h
        cases n with
        | zero => simp
        | succ n => simp
  rw [hnil]
  exact ups_dotdot_nil

end Synchronet.Xpdev
