import Cfengine.ExecTools

/-!
# What a command line is split into

`ArgSplits` is the grammar of command lines: each text is split in one way. `ArgSplitCommand`
follows it, and never writes outside its array (`argSplitCommand_iff`).
-/

namespace Cfengine

variable {s t arg rest : CString} {args : List CString} {c q : Char} {a a' : ArgArray} {fuel : Nat}

/-- A command line is split into these arguments. A quoted argument ends with the same quote or with
the text, and another one ends at white space; behind a quoted one the next may follow at once. -/
inductive ArgSplits : CString → List CString → Prop where
  | nil : ArgSplits [] []
  | space {c : Char} {s : CString} {args : List CString} : isspace c → ArgSplits s args →
      ArgSplits (c :: s) args
  | quoted {q : Char} {arg s : CString} {args : List CString} : isArgQuote q → q ∉ arg →
      ArgSplits s args →
    ArgSplits (q :: (arg ++ q :: s)) (arg :: args)
  | unclosed {q : Char} {arg : CString} : isArgQuote q → q ∉ arg → ArgSplits (q :: arg) [arg]
  | bare {c : Char} {arg s : CString} {args : List CString} : isArgQuote c = false →
    (∀ d ∈ c :: arg, isspace d = false) → (∀ d ∈ s.head?, isspace d) → ArgSplits s args →
    ArgSplits (c :: (arg ++ s)) ((c :: arg) :: args)

theorem isspace_eq_false_of_isArgQuote (h : isArgQuote q) : isspace q = false := by
  rw [isArgQuote, Bool.or_eq_true, Bool.or_eq_true, decide_eq_true_eq, decide_eq_true_eq,
    decide_eq_true_eq] at h
  obtain (rfl | rfl) | rfl := h <;> decide

theorem isArgQuote_eq_false_of_isspace (h : isspace c) : isArgQuote c = false :=
  Bool.eq_false_iff.mpr fun hc =>
    Bool.false_ne_true ((isspace_eq_false_of_isArgQuote hc).symm.trans h)

/-! ## One argument -/

theorem argUntil_append {isEnd : Char → Bool} (harg : ∀ d ∈ arg, isEnd d = false) (hc : isEnd c) :
    argUntil isEnd (arg ++ c :: s) = (arg, if isArgQuote c then s else c :: s) := by
  have hall : ∀ d ∈ arg, (!isEnd d) = true := fun d hd => by rw [harg d hd]; rfl
  rw [argUntil, List.takeWhile_append_of_pos hall, List.dropWhile_append_of_pos hall,
    List.takeWhile_cons_of_neg (by simp [hc]), List.dropWhile_cons_of_neg (by simp [hc]),
    List.append_nil]

theorem argUntil_all {isEnd : Char → Bool} (harg : ∀ d ∈ arg, isEnd d = false) :
    argUntil isEnd arg = (arg, []) := by
  have hall : ∀ d ∈ arg, (!isEnd d) = true := fun d hd => by rw [harg d hd]; rfl
  rw [argUntil, List.takeWhile_eq_self_iff.mpr hall, List.dropWhile_eq_nil_iff.mpr hall]

/-- The cases of a text that starts with no space. -/
inductive NextArg : CString → CString → CString → Prop where
  | quoted {q : Char} {arg s : CString} : isArgQuote q → q ∉ arg →
      NextArg (q :: (arg ++ q :: s)) arg s
  | unclosed {q : Char} {arg : CString} : isArgQuote q → q ∉ arg → NextArg (q :: arg) arg []
  | bare {c : Char} {arg s : CString} : isArgQuote c = false → (∀ d ∈ c :: arg, isspace d = false) →
    (∀ d ∈ s.head?, isspace d) → NextArg (c :: (arg ++ s)) (c :: arg) s

theorem NextArg.nextArg_eq (h : NextArg t arg rest) : nextArg t = (arg, rest) := by
  have hother : ∀ {q : Char} {arg : CString}, q ∉ arg → ∀ d ∈ arg, decide (d = q) = false :=
      fun harg d hd =>
    decide_eq_false fun h => harg (h ▸ hd)
  cases h with
  | quoted hq harg =>
    rw [nextArg, if_pos hq, argUntil_append (hother harg) (decide_eq_true rfl), if_pos hq]
  | unclosed hq harg => rw [nextArg, if_pos hq, argUntil_all (hother harg)]
  | bare hc harg hs =>
    rw [nextArg, if_neg (by rw [hc]; exact Bool.false_ne_true), ← List.cons_append]
    cases rest with
    | nil => rw [List.append_nil, argUntil_all harg]
    | cons d s =>
      have hd := hs d rfl
      rw [argUntil_append harg hd, isArgQuote_eq_false_of_isspace hd]
      rfl

theorem NextArg.length_lt (h : NextArg t arg rest) : rest.length < t.length := by
  cases h with
  | quoted =>
    simp
    omega
  | unclosed => simp
  | bare => simp

theorem NextArg.argSplits (h : NextArg t arg rest) (hrest : ArgSplits rest args) :
    ArgSplits t (arg :: args) := by
  cases h with
  | quoted hq harg => exact .quoted hq harg hrest
  | unclosed hq harg =>
    cases hrest
    exact .unclosed hq harg
  | bare hc harg hs => exact .bare hc harg hs hrest

theorem exists_nextArg (hc : isspace c = false) : ∃ arg rest, NextArg (c :: s) arg rest := by
  cases hq : isArgQuote c with
  | true =>
    by_cases hmem : c ∈ s
    · obtain ⟨arg, rest, rfl, harg⟩ := List.eq_append_cons_of_mem hmem
      exact ⟨arg, rest, .quoted hq harg⟩
    · exact ⟨s, [], .unclosed hq hmem⟩
  | false =>
    have hsplit : s.takeWhile (!isspace ·) ++ s.dropWhile (!isspace ·) = s :=
      List.takeWhile_append_dropWhile
    have harg : ∀ d ∈ c :: s.takeWhile (!isspace ·), isspace d = false := by
      refine List.forall_mem_cons.mpr ⟨hc, fun d hd => ?_⟩
      simpa using List.mem_takeWhile_imp hd
    have hrest : ∀ d ∈ (s.dropWhile (!isspace ·)).head?, isspace d := fun d hd => by
      have hneg := List.head?_dropWhile_not (!isspace ·) s
      rw [Option.mem_def.mp hd] at hneg
      simpa using hneg
    have hnext := NextArg.bare hq harg hrest
    rw [hsplit] at hnext
    exact ⟨_, _, hnext⟩

/-! ## The array -/

/-- The array before its last element is written. -/
structure ArgArray.Holds (a : ArgArray) (args : List CString) : Prop where
  args_eq : a.args = args.map some
  fits : a.args.length ≤ a.argslen
  pos : 0 < a.argslen

/-- An element is written within the array. -/
theorem ArgArray.Holds.store (h : a.Holds args) (argslen : Nat → Nat)
    (hgrow : ∀ n, 0 < n → n < argslen n) (arg : Option CString) :
    ∃ a', (a.expand argslen).store arg = .ok a' ∧ a'.args = a.args ++ [arg] ∧
      a'.args.length ≤ a'.argslen ∧
      0 < a'.argslen := by
  have hexpand : (a.expand argslen).args = a.args ∧ a.args.length < (a.expand argslen).argslen := by
    rw [ArgArray.expand]
    split
    · rename_i hfull
      exact ⟨rfl, by rw [hfull]; exact hgrow _ h.pos⟩
    · rename_i hfull
      exact ⟨rfl, lt_of_le_of_ne h.fits hfull⟩
  refine ⟨_, if_pos (hexpand.1.symm ▸ hexpand.2), ?_, ?_, Nat.zero_lt_of_lt hexpand.2⟩
  · rw [hexpand.1]
  · rw [hexpand.1, List.length_append, List.length_singleton]
    exact hexpand.2

/-- The loop splits the rest of the text and appends its arguments. -/
theorem argSplitCommand_loop (h : a.Holds args) (hfuel : s.length ≤ fuel) :
    ∃ args' a', ArgSplits s args' ∧ argSplitCommand.loop fuel s a = .ok a' ∧
      a'.Holds (args ++ args') := by
  induction fuel generalizing s a args with
  | zero =>
    cases List.length_eq_zero_iff.mp (Nat.le_zero.mp hfuel)
    exact ⟨[], a, .nil, by rw [argSplitCommand.loop], by rwa [List.append_nil]⟩
  | succ fuel ih =>
    cases s with
    | nil => exact ⟨[], a, .nil, by rw [argSplitCommand.loop], by rwa [List.append_nil]⟩
    | cons c s =>
      have hfuel' : s.length ≤ fuel := Nat.le_of_succ_le_succ hfuel
      cases hc : isspace c with
      | true =>
        obtain ⟨args', a', hsplits, hloop, hholds⟩ := ih h hfuel'
        refine ⟨args', a', .space hc hsplits, ?_, hholds⟩
        rw [argSplitCommand.loop, if_pos hc, hloop]
      | false =>
        obtain ⟨arg, rest, hnext⟩ := exists_nextArg (s := s) hc
        obtain ⟨a₁, hstore, hargs, hfits, hpos⟩ := h.store (· * 2) (fun n hn => by omega) (some arg)
        have hholds : a₁.Holds (args ++ [arg]) :=
          ⟨by rw [hargs, h.args_eq, List.map_append]; rfl, hfits, hpos⟩
        have hrest : rest.length ≤ fuel := Nat.le_of_lt_succ (hnext.length_lt.trans_le hfuel)
        obtain ⟨args', a', hsplits, hloop, hholds'⟩ := ih hholds hrest
        rw [List.append_assoc] at hholds'
        refine ⟨arg :: args', a', hnext.argSplits hsplits, ?_, hholds'⟩
        rw [argSplitCommand.loop, if_neg (by rw [hc]; exact Bool.false_ne_true), hnext.nextArg_eq]
        simp only [hstore]
        exact hloop

/-! ## The grammar -/

theorem ArgSplits.cons_cases (h : ArgSplits (c :: s) args) :
    (isspace c ∧ ArgSplits s args) ∨ ∃ arg rest args', NextArg (c :: s) arg rest ∧
      ArgSplits rest args' ∧ args = arg :: args' := by
  cases h with
  | space hc h => exact .inl ⟨hc, h⟩
  | quoted hq harg h => exact .inr ⟨_, _, _, .quoted hq harg, h, rfl⟩
  | unclosed hq harg => exact .inr ⟨_, _, _, .unclosed hq harg, .nil, rfl⟩
  | bare hc harg hs h => exact .inr ⟨_, _, _, .bare hc harg hs, h, rfl⟩

theorem NextArg.not_isspace (h : NextArg (c :: s) arg rest) : isspace c = false := by
  cases h with
  | quoted hq | unclosed hq => exact isspace_eq_false_of_isArgQuote hq
  | bare _ harg => exact harg c List.mem_cons_self

/-- A text is split in one way. -/
theorem ArgSplits.unique {args' : List CString} (h : ArgSplits s args) (h' : ArgSplits s args') :
    args = args' := by
  induction hn : s.length using Nat.strong_induction_on generalizing s args args' with
  | _ n ih =>
    cases s with
    | nil =>
      cases h
      cases h'
      rfl
    | cons c s =>
      obtain ⟨hc, h⟩ | ⟨arg, rest, args₁, hnext, hrest, rfl⟩ := h.cons_cases
      · obtain ⟨-, h'⟩ | ⟨_, _, _, hnext', -, -⟩ := h'.cons_cases
        · exact ih s.length (by rw [← hn]; exact Nat.lt_succ_self _) h h' rfl
        · exact absurd hc (by rw [hnext'.not_isspace]; exact Bool.false_ne_true)
      · obtain ⟨hc, -⟩ | ⟨arg', rest', args₂, hnext', hrest', rfl⟩ := h'.cons_cases
        · exact absurd hc (by rw [hnext.not_isspace]; exact Bool.false_ne_true)
        · have heq := hnext.nextArg_eq.symm.trans hnext'.nextArg_eq
          injection heq with harg hrests
          subst hrests
          rw [harg, ih rest.length (by rw [← hn]; exact hnext.length_lt) hrest hrest' rfl]

/-- `ArgSplitCommand` writes within its array, and leaves the arguments of the command line in it,
with `NULL` behind them. -/
theorem argSplitCommand_iff (comm : CString) (args : List CString) :
    (∃ argslen, argSplitCommand comm = .ok ⟨args.map some ++ [none], argslen⟩ ∧
      args.length < argslen) ↔
      ArgSplits comm args := by
  have hempty : ArgArray.Holds ⟨[], initialArgs⟩ [] := ⟨rfl, Nat.zero_le _, by decide⟩
  obtain ⟨args', a, hsplits, hloop, hholds⟩ := argSplitCommand_loop hempty (le_refl comm.length)
  obtain ⟨a', hstore, hargs, hfits, -⟩ := hholds.store (· + 1) (fun n _ => Nat.lt_succ_self n) none
  rw [hholds.args_eq, List.nil_append] at hargs
  have hresult : argSplitCommand comm = .ok ⟨args'.map some ++ [none], a'.argslen⟩ := by
    rw [argSplitCommand, hloop, ← hargs]
    exact hstore
  constructor
  · rintro ⟨argslen, hok, -⟩
    rw [hresult] at hok
    injection hok with hok
    injection hok with hmap _
    have hmap' := List.append_cancel_right hmap
    rw [← List.map_injective_iff.mpr (Option.some_injective CString) hmap']
    exact hsplits
  · intro h
    cases h.unique hsplits
    refine ⟨a'.argslen, hresult, ?_⟩
    rw [hargs, List.length_append, List.length_map, List.length_singleton] at hfits
    exact hfits

end Cfengine
