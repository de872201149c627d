import F32c.Libc.Printf

/-!
# The walk over a format

What `_xvprintf` reads of its format.  A directive that the end of the format cuts short is taken
for an unknown one: the NUL is copied, and the walk goes on behind it.  In every other format no
character behind the NUL is read.
-/

namespace F32c
namespace Libc

section Count

/-- Some characters more, all of them counted. -/
def Emits (o o' : Out) : Prop :=
  ∃ cs, o'.chars = o.chars ++ cs ∧ o'.retval = o.retval + BitVec.ofNat 32 cs.length

variable {o o' o'' : Out}

@[refl] theorem Emits.refl (o : Out) : Emits o o := ⟨[], by simp, by simp⟩

theorem Emits.trans (h : Emits o o') (h' : Emits o' o'') : Emits o o'' := by
  obtain ⟨cs, hchars, hcount⟩ := h
  obtain ⟨cs', hchars', hcount'⟩ := h'
  refine ⟨cs ++ cs', ?_, ?_⟩
  · rw [hchars', hchars, List.append_assoc]
  · rw [hcount', hcount, List.length_append, BitVec.ofNat_add, BitVec.add_assoc]

theorem emits_pchar (o : Out) (c : CInt) : Emits o (pchar o c) := ⟨[c], rfl, rfl⟩

theorem emits_pchars (o : Out) (cs : List CInt) : Emits o (pchars o cs) := by
  induction cs generalizing o with
  | nil => rfl
  | cons c cs ih => exact (emits_pchar o c).trans (ih (pchar o c))

theorem emits_pad (n : Nat) (c : CInt) (o : Out) : Emits o (pad n c o) := emits_pchars o _

/-- A character or none. -/
theorem Emits.ite {p : Prop} [Decidable p] (h : Emits o o') (h' : Emits o o'') :
    Emits o (if p then o' else o'') := by
  split
  · exact h
  · exact h'

theorem emits_putNumber (base : Nat) (d : Directive) (num : BitVec 64) (o : Out) :
    Emits o (putNumber base d num o) := by
  rw [putNumber]
  refine Emits.trans ?_ (Emits.ite (emits_pad _ _ _) (.refl _))
  refine Emits.trans ?_ (emits_pchars _ _)
  refine Emits.trans ?_ (emits_pad _ _ _)
  refine Emits.trans ?_ (Emits.ite
    (Emits.ite (emits_pchar _ _) (Emits.ite (emits_pchars _ _) (.refl _))) (.refl _))
  exact Emits.trans (Emits.ite (.refl _) (emits_pad _ _ _))
    (Emits.ite (emits_pchar _ _) (.refl _))

theorem emits_putString (P : Platform) (d : Directive) (string : Option CString) (o : Out) :
    Emits o (putString P d string o) := by
  rw [putString]
  refine Emits.trans ?_ (Emits.ite (emits_pad _ _ _) (.refl _))
  exact (Emits.ite (emits_pad _ _ _) (.refl _)).trans (emits_pchars _ _)

variable {P : Platform} (F : Floats P.D)

theorem emits_pdDigit (dwidth : CInt) (s : Digits P.D) (t : CInt) :
    Emits s.out (pdDigit F dwidth s t).out := by
  rw [pdDigit]
  exact Emits.trans (emits_pchar _ _) (Emits.ite (emits_pchar _ _) (.refl _))

theorem emits_pd (x : P.D) (width dwidth padc ch : CInt) (o : Out) :
    Emits o (pd F x width dwidth padc ch o) := by
  rw [pd]
  refine Emits.ite ((emits_pad _ _ _).trans (emits_pchars _ _)) (Emits.ite ?_ ?_)
  · exact ((emits_pad _ _ _).trans (Emits.ite (emits_pchar _ _) (.refl _))).trans
      (emits_pchars _ _)
  · have hdigits (ts : List Nat) (t : CInt) (s : Digits P.D) : Emits s.out
        (ts.foldl (fun s k => pdDigit F dwidth s (t - BitVec.ofNat 32 k)) s).out := by
      induction ts generalizing s with
      | nil => rfl
      | cons k ts ih => exact (emits_pdDigit F dwidth s _).trans (ih _)
    refine Emits.trans ?_ (hdigits _ _ _)
    refine Emits.trans ?_ (Emits.ite (emits_pchar _ _) (.refl _))
    exact Emits.trans (Emits.ite (emits_pchar _ _) (.refl _))
      (Emits.ite (emits_pad _ _ _) (.refl _))

/-- The characters of `pd` are counted apart, and the count is added. -/
theorem emits_add (h : Emits { o with retval := 0 } o') :
    Emits o { o' with retval := o.retval + o'.retval } := by
  obtain ⟨cs, hchars, hcount⟩ := h
  refine ⟨cs, hchars, ?_⟩
  change o.retval + o'.retval = _
  rw [hcount]
  change o.retval + (0#32 + _) = _
  rw [BitVec.zero_add]

end Count

section Scan

variable {P : Platform} {fmt : Nat → Byte} {args : Nat → Arg P} {s s' : Printf}

/-- What a format is read as: text, a directive, or text in which no directive is obeyed. -/
inductive Scan where
  | text | directive | stopped
deriving DecidableEq

/-- A character of a directive. -/
def directiveScan (P : Platform) : Label → Scan
  | .dot | .sharp | .plus | .minus | .star | .zero | .digit | .h | .j | .l | .q | .z => .directive
  | .percent | .c | .d | .n | .o | .p | .s | .u | .upperX | .x | .y => .text
  | .f => if P.floats.isSome then .text else .stopped
  | .other => .stopped

def scanStep (P : Platform) (scan : Scan) (ch : Byte) : Scan :=
  match scan with
  | .text => if ch = (chr '%').setWidth 8 then .directive else .text
  | .directive => directiveScan P (labelOf ch)
  | .stopped => .stopped

/-- What the first `n` characters of a format are read as. -/
def scanned (P : Platform) (fmt : Nat → Byte) (n : Nat) : Scan :=
  ((List.range n).map fmt).foldl (scanStep P) .text

@[simp] theorem scanned_zero : scanned P fmt 0 = .text := rfl

@[simp] theorem scanned_succ (n : Nat) :
    scanned P fmt (n + 1) = scanStep P (scanned P fmt n) (fmt n) := by
  rw [scanned, List.range_succ, List.map_append, List.foldl_append]
  rfl

/-- The format ends outside a directive. -/
def Complete (P : Platform) (fmt : Nat → Byte) (len : Nat) : Prop :=
  scanned P fmt len ≠ .directive

instance (len : Nat) : Decidable (Complete P fmt len) := inferInstanceAs (Decidable (_ ≠ _))

def Printf.scan (s : Printf) : Scan :=
  match s.mode with
  | .text => if s.stop then .stopped else .text
  | _ => .directive

/-- After an unknown directive there is only text. -/
def Printf.Stopped (s : Printf) : Prop := s.stop = true → s.mode = .text

/-- What a character of a directive does. -/
theorem directiveStep_spec (percent : Nat) (d : Directive) (hstop : s.stop = false) :
    (directiveStep P fmt args s percent d).fmt = s.fmt + 1 ∧
      (directiveStep P fmt args s percent d).scan = directiveScan P (labelOf (fmt s.fmt)) ∧
      (directiveStep P fmt args s percent d).Stopped ∧
      Emits s.out (directiveStep P fmt args s percent d).out := by
  have hcopy : (s.unknown P fmt percent).fmt = s.fmt + 1 ∧
      (s.unknown P fmt percent).scan = .stopped ∧ (s.unknown P fmt percent).Stopped ∧
      Emits s.out (s.unknown P fmt percent).out :=
    ⟨rfl, rfl, fun _ => rfl, emits_pchars _ _⟩
  have hdone {o : Out} (ho : Emits s.out o) : (s.took o).fmt = s.fmt + 1 ∧
      (s.took o).scan = .text ∧ (s.took o).Stopped ∧ Emits s.out (s.took o).out := by
    refine ⟨rfl, ?_, fun _ => rfl, ho⟩
    simp [Printf.scan, Printf.took, Printf.done, hstop]
  have hmore (t : Printf) (ht : t.fmt = s.fmt ∧ t.stop = s.stop ∧ t.out = s.out)
      (d' : Directive) : (t.reswitch percent d').fmt = s.fmt + 1 ∧
      (t.reswitch percent d').scan = .directive ∧ (t.reswitch percent d').Stopped ∧
      Emits s.out (t.reswitch percent d').out := by
    obtain ⟨hfmt, hstop', hout⟩ := ht
    refine ⟨congrArg (· + 1) hfmt, rfl, fun h => ?_, ?_⟩
    · exact absurd (hstop'.symm.trans h) (by rw [hstop]; decide)
    · exact hout ▸ .refl _
  have hnumber (n : CInt) : Printf.Stopped
      { s with fmt := s.fmt + 1, mode := .number percent d n } := fun h =>
    absurd (hstop.symm.trans h) (by decide)
  rw [directiveStep]
  generalize labelOf (fmt s.fmt) = label
  cases label with
  | dot | sharp | plus | minus | j | q | z => exact hmore s ⟨rfl, rfl, rfl⟩ _
  | h | l => exact hmore s ⟨rfl, rfl, rfl⟩ _
  | percent =>
      refine ⟨rfl, ?_, fun _ => rfl, emits_pchar _ _⟩
      simp [Printf.scan, Printf.done, hstop, directiveScan]
  | star =>
      dsimp only
      split
      · exact hmore { s with ap := s.ap + 1 } ⟨rfl, rfl, rfl⟩ _
      · split
        · exact hmore { s with ap := s.ap + 1 } ⟨rfl, rfl, rfl⟩ _
        · exact hmore { s with ap := s.ap + 1 } ⟨rfl, rfl, rfl⟩ _
  | zero =>
      dsimp only
      split
      · exact ⟨rfl, rfl, hnumber _, .refl _⟩
      · exact hmore s ⟨rfl, rfl, rfl⟩ _
  | digit => exact ⟨rfl, rfl, hnumber _, .refl _⟩
  | c => exact hdone (emits_pchar _ _)
  | d | o | p | u | upperX | x | y => exact hdone (emits_putNumber _ _ _ _)
  | n => exact hdone (.refl _)
  | s => exact hdone (emits_putString _ _ _ _)
  | f =>
      dsimp only [directiveScan]
      cases P.floats with
      | none => exact hcopy
      | some F => exact hdone (emits_add (emits_pd F _ _ _ _ _ _))
  | other => exact hcopy

/-- What a step does: a character is read as a part of the text or of a directive, or it is seen
to end a number. -/
theorem step_spec (hs : s.Stopped) (hstep : step P fmt args s = some s') :
    s'.Stopped ∧ Emits s.out s'.out ∧
      (s'.fmt = s.fmt + 1 ∧ s'.scan = scanStep P s.scan (fmt s.fmt) ∨
        s'.fmt = s.fmt ∧ s'.scan = s.scan ∧ (∃ percent d n, s.mode = .number percent d n) ∧
          ∃ percent d, s'.mode = .directive percent d) := by
  have hrunning (hmode : s.mode ≠ .text) : s.stop = false := by
    by_contra h
    exact hmode (hs (by simpa using h))
  rw [step] at hstep
  cases hmode : s.mode with
  | text =>
      rw [hmode] at hstep
      dsimp only at hstep
      split at hstep
      · rename_i htext
        split at hstep
        · cases hstep
        · cases hstep
          refine ⟨fun _ => rfl, emits_pchar _ _, .inl ⟨rfl, ?_⟩⟩
          simp only [Printf.scan, hmode]
          cases hstop : s.stop with
          | false => simp_all [scanStep]
          | true => rfl
      · rename_i hpercent
        rw [not_or, not_ne_iff, Bool.not_eq_true] at hpercent
        cases hstep
        refine ⟨fun h => absurd (hpercent.2.symm.trans h) (by decide), .refl _, .inl ⟨rfl, ?_⟩⟩
        simp [Printf.scan, Printf.reswitch, hmode, hpercent, scanStep]
  | directive percent d =>
      rw [hmode] at hstep
      cases hstep
      obtain ⟨hfmt, hscan, hstopped, hemits⟩ := @directiveStep_spec P fmt args s percent d
        (hrunning (by rw [hmode]; exact Mode.noConfusion))
      refine ⟨hstopped, hemits, .inl ⟨hfmt, hscan.trans ?_⟩⟩
      rw [Printf.scan, hmode]
      rfl
  | number percent d n =>
      have hstop := hrunning (by rw [hmode]; exact Mode.noConfusion)
      rw [hmode] at hstep
      dsimp only at hstep
      split at hstep
      · rename_i hdigit
        cases hstep
        refine ⟨fun h => absurd (hstop.symm.trans h) (by decide), .refl _, .inl ⟨rfl, ?_⟩⟩
        rw [Printf.scan, Printf.scan, hmode]
        rcases hdigit with h | h
        · rw [scanStep, h, directiveScan]
        · rw [scanStep, h, directiveScan]
      · cases hstep
        refine ⟨fun h => absurd (hstop.symm.trans h) (by decide), .refl _,
          .inr ⟨rfl, ?_, ⟨percent, d, n, rfl⟩, ⟨percent, _, rfl⟩⟩⟩
        rw [Printf.scan, Printf.scan, hmode]

end Scan

section Run

variable {P : Platform} {fmt : Nat → Byte} {args : Nat → Arg P} {len : Nat}

/-- The format is a string of `len` characters. -/
structure Terminated (fmt : Nat → Byte) (len : Nat) : Prop where
  nonzero : ∀ i < len, fmt i ≠ 0
  nul : fmt len = 0

/-- What holds in every state: the characters that have been read say where the walk is, and
all characters are counted. -/
theorem after_spec (n : Nat) : ∀ s, after P fmt args n = some s →
    s.Stopped ∧ s.scan = scanned P fmt s.fmt ∧
      s.out.retval = BitVec.ofNat 32 s.out.chars.length := by
  induction n with
  | zero =>
      rintro s hs
      cases hs
      exact ⟨fun _ => rfl, rfl, rfl⟩
  | succ n ih =>
      intro s' hs'
      obtain ⟨s, hs, hstep⟩ := Option.bind_eq_some_iff.1 hs'
      obtain ⟨hstopped, hscan, hcount⟩ := ih s hs
      obtain ⟨hstopped', ⟨cs, hchars, hretval⟩, hread⟩ := step_spec hstopped hstep
      refine ⟨hstopped', ?_, ?_⟩
      · rcases hread with ⟨hfmt, hscan'⟩ | ⟨hfmt, hscan', -⟩
        · rw [hfmt, scanned_succ, hscan', hscan]
        · rw [hfmt, hscan', hscan]
      · rw [hretval, hcount, hchars, List.length_append, BitVec.ofNat_add]

/-- Where it returns it has read a NUL outside a directive. -/
theorem step_eq_none_iff {s : Printf} :
    step P fmt args s = none ↔ s.mode = .text ∧ fmt s.fmt = 0 := by
  rw [step]
  cases hmode : s.mode with
  | text =>
      dsimp only
      constructor
      · intro h
        split at h
        · split at h
          · rename_i hnul
            exact ⟨rfl, hnul⟩
          · cases h
        · cases h
      · rintro ⟨-, hnul⟩
        rw [hnul, if_pos (.inl (by decide)), if_pos rfl]
  | directive percent d => simp
  | number percent d n =>
      dsimp only
      constructor
      · intro h
        split at h
        · cases h
        · cases h
      · rintro ⟨h, -⟩
        cases h

theorem after_none {n m : Nat} {s : Printf} (hs : after P fmt args n = some s)
    (hend : step P fmt args s = none) (hm : n < m) : after P fmt args m = none := by
  induction m with
  | zero => omega
  | succ m ih =>
      rw [after]
      rcases Nat.lt_succ_iff_lt_or_eq.1 hm with h | rfl
      · rw [ih h]
        rfl
      · rw [hs]
        exact hend

/-- There is one state in which it returns. -/
theorem Returns.unique {s s' : Printf} (h : Returns P fmt args s) (h' : Returns P fmt args s') :
    s = s' := by
  obtain ⟨n, hn, hend⟩ := h
  obtain ⟨m, hm, hend'⟩ := h'
  rcases Nat.lt_trichotomy n m with hlt | rfl | hlt
  · rw [after_none hn hend hlt] at hm
    cases hm
  · exact Option.some.inj (hn.symm.trans hm)
  · rw [after_none hm hend' hlt] at hn
    cases hn

/-- A format that ends outside a directive is not left. -/
theorem fmt_le_of_complete (hterm : Terminated fmt len) (hcomplete : Complete P fmt len)
    (n : Nat) : ∀ s, after P fmt args n = some s → s.fmt ≤ len := by
  induction n with
  | zero =>
      rintro s hs
      cases hs
      exact Nat.zero_le len
  | succ n ih =>
      intro s' hs'
      obtain ⟨s, hs, hstep⟩ := Option.bind_eq_some_iff.1 hs'
      obtain ⟨hstopped, hscan, -⟩ := after_spec n s hs
      obtain ⟨-, -, hread⟩ := step_spec hstopped hstep
      have hle := ih s hs
      -- at the NUL the walk is in the text, where it returns
      have hne : s.fmt ≠ len := by
        intro hlen
        have hmode : s.mode = .text := by
          rw [hlen] at hscan
          rw [Complete, ← hscan, Printf.scan] at hcomplete
          cases hmode : s.mode with
          | text => rfl
          | directive percent d => exact absurd (by rw [hmode]) hcomplete
          | number percent d n => exact absurd (by rw [hmode]) hcomplete
        rw [step_eq_none_iff.2 ⟨hmode, by rw [hlen, hterm.nul]⟩] at hstep
        cases hstep
      rcases hread with ⟨hfmt, -⟩ | ⟨hfmt, -⟩
      · omega
      · omega

/-- The characters that remain, and one more for a number that is to end. -/
def Printf.left (len : Nat) (s : Printf) : Nat :=
  2 * (len - s.fmt) + match s.mode with
    | .number .. => 1
    | _ => 0

/-- A format that ends outside a directive is walked to its end. -/
theorem returns_of_complete (hterm : Terminated fmt len) (hcomplete : Complete P fmt len) :
    ∃ s, Returns P fmt args s := by
  have hrest (k : Nat) : ∀ n s, after P fmt args n = some s → s.left len < k →
      ∃ s, Returns P fmt args s := by
    induction k with
    | zero =>
        intro n s _ hk
        omega
    | succ k ih =>
        intro n s hs hk
        cases hstep : step P fmt args s with
        | none => exact ⟨s, n, hs, hstep⟩
        | some s' =>
            have hs' : after P fmt args (n + 1) = some s' := by rw [after, hs]; exact hstep
            have hle := fmt_le_of_complete hterm hcomplete (n + 1) s' hs'
            refine ih (n + 1) s' hs' ?_
            obtain ⟨-, -, hread⟩ := step_spec (after_spec n s hs).1 hstep
            rcases hread with ⟨hfmt, -⟩ | ⟨hfmt, -, ⟨percent, d, v, hnumber⟩, percent', d', hmode⟩
            · have hone (t : Printf) : t.left len ≤ 2 * (len - t.fmt) + 1 ∧
                  2 * (len - t.fmt) ≤ t.left len := by
                rw [Printf.left]
                split
                · omega
                · omega
              have h1 := hone s
              have h2 := hone s'
              omega
            · simp only [Printf.left, hnumber, hmode, hfmt] at hk ⊢
              omega
  exact hrest _ 0 .start rfl (Nat.lt_succ_self _)

/-- The walk stays in the format and ends, and the number of characters is returned. -/
def StaysInside (P : Platform) (fmt : Nat → Byte) (args : Nat → Arg P) (len : Nat) : Prop :=
  (∀ n s, after P fmt args n = some s → s.fmt ≤ len) ∧
    ∃ s, Returns P fmt args s ∧ s.out.retval.toInt = s.out.chars.length

theorem complete_of_staysInside (hterm : Terminated fmt len) (h : StaysInside P fmt args len) :
    Complete P fmt len := by
  obtain ⟨hinside, s, ⟨n, hs, hend⟩, -⟩ := h
  obtain ⟨hmode, hnul⟩ := step_eq_none_iff.1 hend
  have hle := hinside n s hs
  have hlen : s.fmt = len := by
    by_contra hne
    exact hterm.nonzero s.fmt (by omega) hnul
  have hscan := (after_spec n s hs).2.1
  rw [Complete, ← hlen, ← hscan, Printf.scan, hmode]
  dsimp only
  split
  · decide
  · decide

theorem retval_toInt_iff {s : Printf} (h : Returns P fmt args s) :
    s.out.retval.toInt = s.out.chars.length ↔ s.out.chars.length < 2 ^ 31 := by
  obtain ⟨n, hs, -⟩ := h
  rw [(after_spec n s hs).2.2]
  constructor
  · intro heq
    have hlt := @BitVec.toInt_lt 32 (BitVec.ofNat 32 s.out.chars.length)
    omega
  · intro hlt
    rw [BitVec.toInt_eq_toNat_of_lt (by rw [BitVec.toNat_ofNat]; omega), BitVec.toNat_ofNat,
      Nat.mod_eq_of_lt (by omega)]

/--
The walk over a format stays in it, ends, and returns the number of characters, if and only if
the format ends outside a directive and the characters can be counted in an `int`.
-/
theorem xvprintf_inside_iff (P : Platform) {fmt : Nat → Byte} {len : Nat}
    (hterm : Terminated fmt len) (args : Nat → Arg P) :
    StaysInside P fmt args len ↔
      Complete P fmt len ∧ ∀ s, Returns P fmt args s → s.out.chars.length < 2 ^ 31 := by
  constructor
  · intro h
    refine ⟨complete_of_staysInside hterm h, fun s hs => ?_⟩
    obtain ⟨-, s', hs', hcount⟩ := h
    rw [hs.unique hs']
    exact (retval_toInt_iff hs').1 hcount
  · rintro ⟨hcomplete, hsmall⟩
    obtain ⟨s, hs⟩ := @returns_of_complete P fmt args len hterm hcomplete
    exact ⟨fmt_le_of_complete hterm hcomplete, s, hs, (retval_toInt_iff hs).2 (hsmall s hs)⟩

/-- A build without `double`. -/
def noFloats : Platform := ⟨false, Unit, none⟩

def zeroArgs (_ : Nat) : Arg noFloats := ⟨0, 0, none, ()⟩

theorem fmtNull_terminated : Terminated fmtNull 11 := ⟨by decide, by decide⟩

/-- The format that stands for a null pointer is printed, and 11 is returned. -/
theorem fmtNull_inside : StaysInside noFloats fmtNull zeroArgs 11 := by
  refine (xvprintf_inside_iff noFloats fmtNull_terminated zeroArgs).2 ⟨by decide, fun s hs => ?_⟩
  have hend : ∃ s, Returns noFloats fmtNull zeroArgs s ∧ s.out.chars.length = 11 :=
    ⟨_, ⟨11, rfl, rfl⟩, rfl⟩
  obtain ⟨s', hs', hlength⟩ := hend
  rw [hs.unique hs', hlength]
  decide

/-- A format of one percent sign, and what is behind it in the memory. -/
def percentOnly (i : Nat) : Byte := if i = 0 then (chr '%').setWidth 8 else 0

/-- The NUL behind the percent sign is taken for an unknown directive. -/
theorem percentOnly_left : ¬StaysInside noFloats percentOnly zeroArgs 1 := by
  intro h
  have hcomplete := complete_of_staysInside ⟨by decide, by decide⟩ h
  exact absurd hcomplete (by decide)

end Run

end Libc
end F32c
