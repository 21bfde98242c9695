import Synchronet.Lib.Wildcards
import Synchronet.Xpdev.Genwrap

/-!
# Wildcard matching (dirwrap.c)

`wildmatch` compares a file name with a specification in which `?` stands for any character
and `*` for any sequence.  With `path` set a sequence is to contain no path delimiter.  Which
characters delimit depends on the system, so that the test is a parameter.
-/

namespace Synchronet.Xpdev

open Wildcards (Item Matches)

def question : UInt8 := 63

def star : UInt8 := 42

/-- How many suffixes the loop over `wildend` tries when no delimiter may be passed.  A
delimiter steps `wildend` back, so that the suffix which begins with it is not tried. -/
def wildEnds (isDelim : UInt8 → Bool) : Str → ℕ
  | [] => 1
  | c :: rest => if isDelim c then 0 else wildEnds isDelim rest + 1

def wildmatch (isDelim : UInt8 → Bool) (path : Bool) (fname : Str) : Str → Bool
  | [] => fname.isEmpty
  | c :: spec =>
      if c = question then
        match fname with
        | [] => false
        | _ :: rest => wildmatch isDelim path rest spec
      else if c = star then
        -- a run of stars is passed over up to its last one
        if spec.head? = some star then wildmatch isDelim path fname spec
        else
          let ends := if path then wildEnds isDelim fname else fname.length + 1
          (List.range ends).reverse.any fun k ↦ wildmatch isDelim path (fname.drop k) spec
      else
        match fname with
        | [] => false
        | d :: rest => c = d && wildmatch isDelim path rest spec

/-! ## The reference -/

/-- The specification as a pattern. -/
def wildPattern (spec : Str) : List (Item UInt8) :=
  spec.map fun c ↦ if c = question then .one else if c = star then .many else .char c

/-- What a `*` is to stand for. -/
def WildRun (isDelim : UInt8 → Bool) (path : Bool) (w _rest : Str) : Prop :=
  path = true → ∀ c ∈ w, isDelim c = false

/-- A sequence that does not end right before a delimiter. -/
def WildRunInside (isDelim : UInt8 → Bool) (path : Bool) (w rest : Str) : Prop :=
  WildRun isDelim path w rest ∧ (path = true → ∀ c ∈ rest.head?, isDelim c = false)

variable {isDelim : UInt8 → Bool} {path : Bool}

theorem wildPattern_cons (c : UInt8) (spec : Str) :
    wildPattern (c :: spec) =
      (if c = question then .one else if c = star then .many else .char c) ::
        wildPattern spec := rfl

theorem lt_wildEnds_iff {fname : Str} {k : ℕ} :
    k < wildEnds isDelim fname ↔
      ∃ w rest, fname = w ++ rest ∧ w.length = k ∧ WildRunInside isDelim true w rest := by
  induction fname generalizing k with
  | nil =>
      constructor
      · intro hk
        refine ⟨[], [], rfl, ?_, ?_⟩
        · simpa [wildEnds, eq_comm] using hk
        · simp [WildRunInside, WildRun]
      · rintro ⟨w, rest, happ, rfl, -⟩
        simp [wildEnds, (List.nil_eq_append_iff.mp happ).1]
  | cons c fname ih =>
      by_cases hc : isDelim c = true
      · simp only [wildEnds, hc, if_true, Nat.not_lt_zero, false_iff]
        rintro ⟨w, rest, happ, -, hrun, hnext⟩
        cases w with
        | nil =>
            obtain rfl : rest = c :: fname := happ.symm
            simp [hc] at hnext
        | cons d w =>
            obtain ⟨rfl, -⟩ := List.cons.inj happ
            simpa [hc] using hrun rfl c (List.mem_cons_self ..)
      · have hfree : isDelim c = false := by simpa using hc
        simp only [wildEnds, hfree, Bool.false_eq_true, if_false]
        cases k with
        | zero =>
            refine iff_of_true (Nat.succ_pos _) ⟨[], c :: fname, rfl, rfl, ?_⟩
            simp [WildRunInside, WildRun, hfree]
        | succ k =>
            rw [Nat.succ_lt_succ_iff, ih]
            constructor
            · rintro ⟨w, rest, rfl, rfl, hrun, hnext⟩
              refine ⟨c :: w, rest, rfl, rfl, fun _ ↦ ?_, hnext⟩
              simpa [hfree] using hrun rfl
            · rintro ⟨w, rest, happ, hlen, hrun, hnext⟩
              cases w with
              | nil => simp at hlen
              | cons d w =>
                  obtain ⟨rfl, hfname⟩ := List.cons.inj happ
                  refine ⟨w, rest, hfname, by simpa using hlen, fun _ ↦ ?_, hnext⟩
                  intro e he
                  exact hrun rfl e (List.mem_cons_of_mem c he)

/-- The suffixes that a `*` tries are those behind a sequence which does not end right before a
delimiter. -/
theorem any_wildEnds_iff {fname : Str} {p : Str → Bool} :
    ((List.range (if path then wildEnds isDelim fname else fname.length + 1)).reverse.any
        fun k ↦ p (fname.drop k)) = true ↔
      ∃ w rest, fname = w ++ rest ∧ WildRunInside isDelim path w rest ∧ p rest = true := by
  simp only [List.any_eq_true, List.mem_reverse, List.mem_range]
  cases path with
  | true =>
      simp only [if_true, lt_wildEnds_iff]
      constructor
      · rintro ⟨_, ⟨w, rest, rfl, rfl, hrun⟩, hp⟩
        exact ⟨w, rest, rfl, hrun, by simpa using hp⟩
      · rintro ⟨w, rest, rfl, hrun, hp⟩
        exact ⟨w.length, ⟨w, rest, rfl, rfl, hrun⟩, by simpa using hp⟩
  | false =>
      constructor
      · rintro ⟨k, -, hp⟩
        exact ⟨fname.take k, fname.drop k, (List.take_append_drop k fname).symm,
          ⟨nofun, nofun⟩, hp⟩
      · rintro ⟨w, rest, rfl, -, hp⟩
        refine ⟨w.length, ?_, by simpa using hp⟩
        simp only [Bool.false_eq_true, if_false, List.length_append]
        omega

theorem matches_many_many_inside {p : List (Item UInt8)} {fname : Str} :
    Matches (WildRunInside isDelim path) (.many :: .many :: p) fname ↔
      Matches (WildRunInside isDelim path) (.many :: p) fname := by
  apply Wildcards.matches_many_many
  · rintro w w' rest ⟨hw, -⟩ ⟨hw', hnext⟩
    refine ⟨fun hpath c hc ↦ ?_, hnext⟩
    rcases List.mem_append.mp hc with h | h
    · exact hw hpath c h
    · exact hw' hpath c h
  · rintro w rest ⟨hw, hnext⟩
    refine ⟨fun _ c hc ↦ by simp at hc, fun hpath c hc ↦ ?_⟩
    cases w with
    | nil => exact hnext hpath c hc
    | cons d w =>
        obtain rfl : d = c := by simpa using hc
        exact hw hpath d (List.mem_cons_self ..)

/-- What `wildmatch` computes. -/
theorem wildmatch_iff_inside (fname spec : Str) :
    wildmatch isDelim path fname spec = true ↔
      Matches (WildRunInside isDelim path) (wildPattern spec) fname := by
  induction spec generalizing fname with
  | nil => simp [wildmatch, wildPattern]
  | cons c spec ih =>
      rw [wildPattern_cons, wildmatch.eq_def]
      by_cases hone : c = question
      · simp only [if_pos hone]
        cases fname with
        | nil => simp
        | cons d rest => simpa using ih rest
      · by_cases hmany : c = star
        · simp only [if_neg hone, if_pos hmany]
          by_cases hrun : spec.head? = some star
          · obtain ⟨rest, rfl⟩ : ∃ rest, spec = star :: rest := by
              cases spec with
              | nil => simp at hrun
              | cons d rest => exact ⟨rest, by simpa using hrun⟩
            have hpattern : wildPattern (star :: rest) = .many :: wildPattern rest := rfl
            rw [List.head?_cons, if_pos rfl, ih, hpattern, matches_many_many_inside]
          · rw [if_neg hrun]
            rw [Wildcards.matches_many]
            simpa only [ih] using any_wildEnds_iff (p := (wildmatch isDelim path · spec))
        · simp only [if_neg hone, if_neg hmany]
          cases fname with
          | nil => simp
          | cons d rest =>
              simp only [Bool.and_eq_true, decide_eq_true_eq, ih, Wildcards.matches_char,
                List.cons.injEq]
              constructor
              · rintro ⟨rfl, h⟩
                exact ⟨rest, ⟨rfl, rfl⟩, h⟩
              · rintro ⟨rest', ⟨rfl, rfl⟩, h⟩
                exact ⟨rfl, h⟩

/-- `wildmatch` follows the reference just on the names that, if they match at all, match with
no `*` that ends right before a delimiter. -/
theorem wildmatch_iff_matches_iff (isDelim : UInt8 → Bool) (path : Bool) (fname spec : Str) :
    (wildmatch isDelim path fname spec = true ↔
        Matches (WildRun isDelim path) (wildPattern spec) fname) ↔
      (path = true → Matches (WildRun isDelim path) (wildPattern spec) fname →
        Matches (WildRunInside isDelim path) (wildPattern spec) fname) := by
  rw [wildmatch_iff_inside]
  constructor
  · intro h _ hmatch
    exact h.mpr hmatch
  · intro h
    refine ⟨fun hinside ↦ hinside.mono fun w rest hrun ↦ hrun.1, fun hmatch ↦ ?_⟩
    cases path with
    | true => exact h rfl hmatch
    | false => exact hmatch.mono fun w rest hrun ↦ ⟨hrun, nofun⟩

/-- `*/x` matches `a/x`, and `wildmatch` says that it does not. -/
theorem wildmatch_ne_matches :
    ¬ ∀ (isDelim : UInt8 → Bool) (path : Bool) (fname spec : Str),
      wildmatch isDelim path fname spec = true ↔
        Matches (WildRun isDelim path) (wildPattern spec) fname := by
  intro h
  have hfail : wildmatch (· == 47) true [97, 47, 120] [42, 47, 120] = false := by decide +kernel
  have hmatch : Matches (WildRun (· == 47) true) (wildPattern [42, 47, 120]) [97, 47, 120] :=
    ⟨[97], [47, 120], rfl, by simp [WildRun], [120], rfl, [], rfl, rfl⟩
  rw [(h _ _ _ _).mpr hmatch] at hfail
  simp at hfail

end Synchronet.Xpdev
