import F32c.Libc.Format
import Mathlib.Data.List.GetD

/-!
# Formatted output into a buffer

`sprintf` and `snprintf` pass one callback to `_xvprintf`.  Its counter `remain` goes down to one,
where nothing more is stored, and is zero from the beginning where there is no limit.  A size of
zero is therefore no limit either.

Places in the buffer are counted from its beginning.
-/

namespace F32c
namespace Libc

section Callback

/-- `struct snprintf_arg`, and the memory it points into. -/
structure SnprintfArg where
  mem : Nat → Byte
  str : Nat
  remain : BitVec 32

/-- `*info->str++ = c` -/
def SnprintfArg.store (info : SnprintfArg) (c : CInt) : SnprintfArg :=
  { info with mem := Function.update info.mem info.str (c.setWidth 8), str := info.str + 1 }

def snprintfPchar (info : SnprintfArg) (c : CInt) : SnprintfArg :=
  let info := if info.remain ≠ 1 then info.store c else info
  if 2 ≤ info.remain then { info with remain := info.remain - 1 } else info

/-- `vsnprintf`, where `_xvprintf` has returned in the state `s`: the memory and the result. -/
def vsnprintf (mem : Nat → Byte) (size : BitVec 32) (s : Printf) : (Nat → Byte) × CInt :=
  let info := s.out.chars.foldl snprintfPchar ⟨mem, 0, size⟩
  let info := if 1 ≤ info.remain then info.store 0 else info
  (info.mem, s.out.retval)

/-- `snprintf` -/
def snprintf (mem : Nat → Byte) (size : BitVec 32) (s : Printf) : (Nat → Byte) × CInt :=
  vsnprintf mem size s

/-- `sprintf`, where `_xvprintf` has returned in the state `s`. -/
def sprintf (mem : Nat → Byte) (s : Printf) : (Nat → Byte) × CInt :=
  let info := s.out.chars.foldl snprintfPchar ⟨mem, 0, 0⟩
  ((info.store 0).mem, s.out.retval)

end Callback

section Buffer

variable {mem : Nat → Byte} {size : BitVec 32}

/-- The memory with bytes at its beginning. -/
def overwrite (mem : Nat → Byte) (bytes : List Byte) (i : Nat) : Byte := bytes.getD i (mem i)

theorem overwrite_of_lt {bytes : List Byte} {i : Nat} (h : i < bytes.length) :
    overwrite mem bytes i = bytes[i] := List.getD_eq_getElem _ _ h

theorem overwrite_of_le {bytes : List Byte} {i : Nat} (h : bytes.length ≤ i) :
    overwrite mem bytes i = mem i := List.getD_eq_default _ _ h

/-- The byte behind the others is written. -/
theorem update_overwrite (mem : Nat → Byte) (bytes : List Byte) (b : Byte) :
    Function.update (overwrite mem bytes) bytes.length b = overwrite mem (bytes ++ [b]) := by
  funext i
  rcases Nat.lt_trichotomy i bytes.length with hlt | rfl | hgt
  · rw [Function.update_of_ne (by omega), overwrite, overwrite, List.getD_append _ _ _ _ hlt]
  · rw [Function.update_self, overwrite, List.getD_append_right _ _ _ _ (le_refl _), Nat.sub_self,
      List.getD_cons_zero]
  · rw [Function.update_of_ne (by omega), overwrite_of_le (by omega), overwrite_of_le]
    rw [List.length_append, List.length_singleton]
    omega

/-- The characters as bytes. -/
def bytesOf (cs : List CInt) : List Byte := cs.map (BitVec.setWidth 8)

@[simp] theorem length_bytesOf (cs : List CInt) : (bytesOf cs).length = cs.length :=
  List.length_map _

theorem bytesOf_append (cs : List CInt) (c : CInt) :
    bytesOf (cs ++ [c]) = bytesOf cs ++ [c.setWidth 8] := List.map_append

/-- The text that is printed. -/
def Printf.text (s : Printf) : List Byte := bytesOf s.out.chars

/-- Without a limit all characters are stored. -/
theorem foldl_unlimited (mem : Nat → Byte) (cs : List CInt) :
    cs.foldl snprintfPchar ⟨mem, 0, 0⟩ = ⟨overwrite mem (bytesOf cs), cs.length, 0⟩ := by
  induction cs using List.reverseRecOn with
  | nil => rfl
  | append_singleton cs c ih =>
      rw [List.foldl_append, ih, bytesOf_append, ← update_overwrite, length_bytesOf,
        List.length_append]
      rfl

/-- With a limit as many characters are stored as there is room for, besides the NUL. -/
theorem foldl_limited (hsize : size ≠ 0) (mem : Nat → Byte) (cs : List CInt) :
    let info := cs.foldl snprintfPchar ⟨mem, 0, size⟩
    info.mem = overwrite mem ((bytesOf cs).take (size.toNat - 1)) ∧
      info.str = min cs.length (size.toNat - 1) ∧
      info.remain.toNat = size.toNat - min cs.length (size.toNat - 1) := by
  have hpos : 0 < size.toNat := by
    rw [Nat.pos_iff_ne_zero, ← BitVec.toNat_zero, BitVec.toNat_ne_iff_ne]
    exact hsize
  induction cs using List.reverseRecOn with
  | nil =>
      refine ⟨?_, by simp, by simp⟩
      rw [bytesOf, List.map_nil, List.take_nil]
      rfl
  | append_singleton cs c ih =>
      obtain ⟨hmem, hstr, hremain⟩ := ih
      rw [List.foldl_append, List.foldl_cons, List.foldl_nil, bytesOf_append]
      generalize cs.foldl snprintfPchar ⟨mem, 0, size⟩ = info at hmem hstr hremain ⊢
      have hlength : (cs ++ [c]).length = cs.length + 1 := List.length_append
      have hone : info.remain ≠ 1 ↔ cs.length < size.toNat - 1 := by
        rw [← BitVec.toNat_ne_iff_ne]
        change info.remain.toNat ≠ 1 ↔ _
        omega
      have htwo : 2 ≤ info.remain ↔ cs.length < size.toNat - 1 := by
        rw [BitVec.le_def]
        change 2 ≤ info.remain.toNat ↔ _
        omega
      rw [snprintfPchar]
      by_cases hroom : cs.length < size.toNat - 1
      · have hall : ((bytesOf cs).take (size.toNat - 1)).length = cs.length := by
          rw [List.length_take, length_bytesOf]
          omega
        rw [if_pos (hone.2 hroom)]
        dsimp only
        rw [SnprintfArg.store]
        dsimp only
        rw [if_pos (htwo.2 hroom)]
        dsimp only
        refine ⟨?_, by omega, ?_⟩
        · rw [hmem, hstr, Nat.min_eq_left (by omega), ← hall, update_overwrite,
            List.take_of_length_le (by rw [length_bytesOf]; omega),
            List.take_of_length_le (by rw [List.length_append, length_bytesOf]; exact hroom)]
        · have hle : 1 ≤ info.remain := by
            rw [BitVec.le_def]
            change 1 ≤ info.remain.toNat
            omega
          rw [BitVec.toNat_sub_of_le hle]
          change info.remain.toNat - 1 = _
          omega
      · rw [if_neg fun h => hroom (hone.1 h)]
        dsimp only
        rw [if_neg fun h => hroom (htwo.1 h)]
        refine ⟨?_, by omega, by omega⟩
        rw [hmem, List.take_append_of_le_length (by rw [length_bytesOf]; omega)]

theorem sprintf_mem (mem : Nat → Byte) (s : Printf) :
    (sprintf mem s).1 = overwrite mem (s.text ++ [0]) := by
  rw [sprintf, foldl_unlimited, Printf.text, ← update_overwrite, length_bytesOf]
  rfl

theorem snprintf_mem_zero (mem : Nat → Byte) (s : Printf) :
    (snprintf mem 0 s).1 = overwrite mem s.text := by
  rw [snprintf, vsnprintf, foldl_unlimited]
  rfl

theorem snprintf_mem (hsize : size ≠ 0) (mem : Nat → Byte) (s : Printf) :
    (snprintf mem size s).1 = overwrite mem (s.text.take (size.toNat - 1) ++ [0]) := by
  obtain ⟨hmem, hstr, hremain⟩ := foldl_limited hsize mem s.out.chars
  rw [snprintf, vsnprintf]
  generalize s.out.chars.foldl snprintfPchar ⟨mem, 0, size⟩ = info at hmem hstr hremain
  have hpos : 0 < size.toNat := by
    rw [Nat.pos_iff_ne_zero, ← BitVec.toNat_zero, BitVec.toNat_ne_iff_ne]
    exact hsize
  have hone : 1 ≤ info.remain := by
    rw [BitVec.le_def]
    change 1 ≤ info.remain.toNat
    omega
  have hlength : (s.text.take (size.toNat - 1)).length = info.str := by
    rw [List.length_take, Printf.text, length_bytesOf, hstr, Nat.min_comm]
  dsimp only
  rw [if_pos hone, SnprintfArg.store, hmem, ← update_overwrite, hlength]
  rfl

/-- What is promised of `snprintf`, where `_xvprintf` has returned in the state `s`. -/
structure SnprintfBound (size : BitVec 32) (s : Printf) : Prop where
  bound : ∀ mem i, size.toNat ≤ i → (snprintf mem size s).1 i = mem i
  text : size ≠ 0 → ∀ mem, ∀ i < min (size.toNat - 1) s.text.length,
    (snprintf mem size s).1 i = (sprintf mem s).1 i
  nul : size ≠ 0 → ∀ mem, (snprintf mem size s).1 (min (size.toNat - 1) s.text.length) = 0
  count : ∀ mem, (snprintf mem size s).2.toInt = s.text.length

theorem snprintfBound_iff {P : Platform} {fmt : Nat → Byte} {args : Nat → Arg P} {s : Printf}
    (h : Returns P fmt args s) (size : BitVec 32) :
    SnprintfBound size s ↔ (size = 0 → s.text = []) ∧ s.text.length < 2 ^ 31 := by
  have hlength : s.text.length = s.out.chars.length := length_bytesOf _
  have hcount : (∀ mem, (snprintf mem size s).2.toInt = s.text.length) ↔
      s.text.length < 2 ^ 31 := by
    rw [hlength, ← retval_toInt_iff h]
    exact ⟨fun hall => hall fun _ => 0, fun heq _ => heq⟩
  constructor
  · rintro ⟨hbound, -, -, hint⟩
    refine ⟨fun hzero => ?_, hcount.1 hint⟩
    subst hzero
    by_contra hne
    have hpos : 0 < s.text.length := List.length_pos_of_ne_nil hne
    -- a memory that differs from the first character
    have hfirst := hbound (fun _ => s.text[0] + 1) 0 (Nat.zero_le _)
    rw [snprintf_mem_zero, overwrite_of_lt hpos] at hfirst
    exact absurd hfirst (by simp)
  · rintro ⟨hzero, hsmall⟩
    have hpos (hsize : size ≠ 0) : 0 < size.toNat := by
      rw [Nat.pos_iff_ne_zero, ← BitVec.toNat_zero, BitVec.toNat_ne_iff_ne]
      exact hsize
    have htake : (s.text.take (size.toNat - 1)).length = min (size.toNat - 1) s.text.length :=
      List.length_take
    refine ⟨fun mem i hi => ?_, fun hsize mem i hi => ?_, fun hsize mem => ?_, hcount.2 hsmall⟩
    · by_cases hsize : size = 0
      · subst hsize
        rw [snprintf_mem_zero, hzero rfl]
        rfl
      · have hsize' := hpos hsize
        rw [snprintf_mem hsize, overwrite_of_le]
        rw [List.length_append, htake, List.length_singleton]
        omega
    · rw [snprintf_mem hsize, sprintf_mem, overwrite, overwrite,
        List.getD_append _ _ _ _ (by omega), List.getD_append _ _ _ _ (by omega),
        List.getD_eq_getElem _ _ (by omega), List.getElem_take, List.getD_eq_getElem]
    · rw [snprintf_mem hsize, overwrite, ← htake, List.getD_append_right _ _ _ _ (le_refl _),
        Nat.sub_self, List.getD_cons_zero]

/--
`snprintf` stays within the size, leaves the first part of the text that `sprintf` leaves, ends
it with a NUL and returns the length of the text, if and only if the size is not zero or the
text is empty, and the length is an `int`.
-/
theorem snprintf_iff (P : Platform) (fmt : Nat → Byte) (args : Nat → Arg P) (size : BitVec 32) :
    (∀ s, Returns P fmt args s →
      (∀ mem, (sprintf mem s).1 = overwrite mem (s.text ++ [0])) ∧
        (SnprintfBound size s ↔ (size = 0 → s.text = []) ∧ s.text.length < 2 ^ 31)) ∧
      ∀ len, Terminated fmt len → Complete P fmt len → ∃ s, Returns P fmt args s :=
  ⟨fun s h => ⟨fun mem => sprintf_mem mem s, snprintfBound_iff h size⟩,
    fun _ => returns_of_complete⟩

/-- The format that stands for a null pointer fits a buffer of 8 bytes in part. -/
theorem snprintf_fmtNull : ∃ s, Returns noFloats fmtNull zeroArgs s ∧ SnprintfBound 8 s := by
  obtain ⟨hbound, hreturns⟩ := snprintf_iff noFloats fmtNull zeroArgs 8
  have hend : ∃ s, Returns noFloats fmtNull zeroArgs s ∧ s.text.length = 11 :=
    ⟨_, ⟨11, rfl, rfl⟩, rfl⟩
  obtain ⟨s', hs', hlength⟩ := hend
  obtain ⟨s, hs⟩ := hreturns 11 fmtNull_terminated (by decide)
  refine ⟨s, hs, (hbound s hs).2.2 ⟨fun h => absurd h (by decide), ?_⟩⟩
  rw [hs.unique hs', hlength]
  decide

/-- A size of zero is no limit. -/
theorem snprintf_zero : ∃ s, Returns noFloats fmtNull zeroArgs s ∧ ¬SnprintfBound 0 s := by
  have hend : ∃ s, Returns noFloats fmtNull zeroArgs s ∧ s.text.length = 11 :=
    ⟨_, ⟨11, rfl, rfl⟩, rfl⟩
  obtain ⟨s, hs, hlength⟩ := hend
  refine ⟨s, hs, fun h => ?_⟩
  rw [((snprintfBound_iff hs 0).1 h).1 rfl] at hlength
  cases hlength

end Buffer

end Libc
end F32c
