import Mathlib.Tactic

/-!
# The S-record boot loader

This module embeds the loader loop of `boot/sio/loader.c`: one step for each
character that is received.  What the loader prints and shows on the LEDs is left
out.  Registers of type `int` that hold a value are words, the counters `pos`,
`len` and `cnt` are integers.
-/

namespace F32c
namespace Srec

abbrev Byte := BitVec 8
abbrev Word := BitVec 32

/-- Whether the loader still reads, has jumped to a program, or has left for the binary loader. -/
inductive Control where
  | reading
  | jump (addr : Word)
  | binary
deriving DecidableEq

structure State where
  pos : Int := -1
  len : Int := 255
  cnt : Int := 2
  val : Word := 0#32
  cp : Word := 0#32
  baseAddr : Word := 0#32
  mem : Word → Byte
  control : Control := .reading

/-- The label `next`. -/
def next (s : State) : State :=
  { s with pos := -1, len := 255, cnt := 2 }

/-- The value of a character as a hexadecimal digit. -/
def digit (c : Word) : Word :=
  let c := if 'a'.toNat ≤ c.toInt then c - 32#32 else c
  if 'A'.toNat ≤ c.toInt then c - 65#32 + 10#32 else c - 48#32

/-- A digit after the letter `S`; `pos` and `val` already count it in. -/
def digitStep (s : State) : State :=
  if s.pos = 1 then
    if 7 ≤ s.val.toInt ∧ s.val.toInt ≤ 9 then { s with control := .jump s.baseAddr }
    else
      { s with
        len := if s.val.toInt ≤ 3 then (s.val <<< 1).toInt + 5 else s.len
        val := 0#32 }
  else if s.pos = 3 then { s with cnt := s.cnt + (s.val <<< 1).toInt, val := 0#32 }
  else if s.len < 6 then s
  else if s.pos = s.len then
    { s with
      cp := s.val
      baseAddr := if s.baseAddr = 0#32 then s.val else s.baseAddr }
  else if s.len < s.pos ∧ s.pos % 2 = 1 ∧ s.pos < s.cnt then
    { s with mem := Function.update s.mem s.cp (s.val.setWidth 8), cp := s.cp + 1#32 }
  else s

/-- One received character. -/
def step (s : State) (ch : Byte) : State :=
  let c := ch.signExtend 32
  if s.control ≠ .reading then s
  else if s.pos < 0 then
    if c = BitVec.ofNat 32 'S'.toNat then { s with pos := 0, val := 0#32 }
    else if c = -1#32 then { s with control := .binary }
    else if c = BitVec.ofNat 32 '\r'.toNat then next s
    else { s with val := 0#32 }
  else if 10 ≤ c.toInt ∧ c.toInt ≤ 13 then next s
  else digitStep { s with pos := s.pos + 1, val := (s.val <<< 4) ||| digit c }

/-- The loader reads a text. -/
def run (s : State) (text : List Byte) : State := text.foldl step s

section Encoder

/-- `n` hexadecimal digits of a word, most significant first. -/
def hexDigits (w : Word) : Nat → List (BitVec 4)
  | 0 => []
  | n + 1 => hexDigits (w >>> 4) n ++ [w.setWidth 4]

/-- A character for a digit, in upper or lower case. -/
def HexChar (ch : Byte) (n : BitVec 4) : Prop :=
  ch = (if n.toNat < 10 then 0x30#8 else 0x37#8) + n.setWidth 8 ∨
    ch = (if n.toNat < 10 then 0x30#8 else 0x57#8) + n.setWidth 8

/-- Characters for some digits. -/
def HexText (text : List Byte) (ns : List (BitVec 4)) : Prop :=
  List.Forall₂ HexChar text ns

instance (ch : Byte) (n : BitVec 4) : Decidable (HexChar ch n) :=
  inferInstanceAs (Decidable (_ ∨ _))

instance (text : List Byte) (ns : List (BitVec 4)) : Decidable (HexText text ns) :=
  inferInstanceAs (Decidable (List.Forall₂ HexChar text ns))

/-- A line end: some carriage returns and line feeds. -/
def LineEnd (text : List Byte) : Prop :=
  text ≠ [] ∧ ∀ ch ∈ text, ch = 0x0a#8 ∨ ch = 0x0d#8

instance (text : List Byte) : Decidable (LineEnd text) :=
  inferInstanceAs (Decidable (_ ∧ _))

/-- The data records `S1`, `S2` and `S3`. -/
inductive Kind where
  | s1 | s2 | s3
deriving DecidableEq

/-- The number of address bytes. -/
def Kind.addrBytes : Kind → Nat
  | .s1 => 2
  | .s2 => 3
  | .s3 => 4

/-- The character of a record type. -/
def Kind.char : Kind → Byte
  | .s1 => 0x31#8
  | .s2 => 0x32#8
  | .s3 => 0x33#8

/-- A data record; the byte count covers the address, the data and the checksum. -/
structure Record where
  kind : Kind
  addr : Word
  data : List Byte
  addr_lt : addr.toNat < 2 ^ (8 * kind.addrBytes)
  count_lt : kind.addrBytes + data.length + 1 < 256

/-- The digits of a record behind its type. -/
def Record.digits (r : Record) (checksum : Byte) : List (BitVec 4) :=
  hexDigits (BitVec.ofNat 32 (r.kind.addrBytes + r.data.length + 1)) 2 ++
    (hexDigits r.addr (2 * r.kind.addrBytes) ++
      (r.data.flatMap (fun b => hexDigits (b.setWidth 32) 2) ++
        hexDigits (checksum.setWidth 32) 2))

/-- A text of a record; the loader does not look at the value of the checksum. -/
def RecordText (r : Record) (text : List Byte) : Prop :=
  ∃ body checksum eol, text = 0x53#8 :: r.kind.char :: (body ++ eol) ∧
    HexText body (r.digits checksum) ∧ LineEnd eol

/-- A text of an `S0` header. -/
def HeaderText (text : List Byte) : Prop :=
  ∃ body ns eol, text = 0x53#8 :: 0x30#8 :: (body ++ eol) ∧ HexText body ns ∧ LineEnd eol

/-- A text that begins with an optional header, holds the records and is terminated. -/
def FileText (rs : List Record) (text : List Byte) : Prop :=
  ∃ header texts t rest, text = header ++ (texts.flatten ++ (0x53#8 :: t :: rest)) ∧
    (header = [] ∨ HeaderText header) ∧ List.Forall₂ RecordText rs texts ∧
    (t = 0x37#8 ∨ t = 0x38#8 ∨ t = 0x39#8)

/-- Bytes stored one behind the other. -/
def storeBytes (mem : Word → Byte) : Word → List Byte → Word → Byte
  | _, [] => mem
  | a, b :: bs => storeBytes (Function.update mem a b) (a + 1#32) bs

/-- The memory after all records were stored in order. -/
def storeRecords (mem : Word → Byte) (rs : List Record) : Word → Byte :=
  rs.foldl (fun m r => storeBytes m r.addr r.data) mem

end Encoder

section Digits

variable {s : State}

/-- The value of a hexadecimal character. -/
theorem hexChar_digit {ch : Byte} {n : BitVec 4} (h : HexChar ch n) :
    ¬(10 ≤ (ch.signExtend 32).toInt ∧ (ch.signExtend 32).toInt ≤ 13) ∧
      digit (ch.signExtend 32) = n.setWidth 32 := by
  have hall : ∀ n : BitVec 4, ∀ upper : Bool,
      let ch := (if n.toNat < 10 then 0x30#8 else if upper then 0x37#8 else 0x57#8) + n.setWidth 8
      ¬(10 ≤ (ch.signExtend 32).toInt ∧ (ch.signExtend 32).toInt ≤ 13) ∧
        digit (ch.signExtend 32) = n.setWidth 32 := by
    decide
  rcases h with rfl | rfl
  · exact hall n true
  · exact hall n false

/-- The registers after one more digit was shifted in. -/
def shifted (s : State) (n : BitVec 4) : State :=
  { s with pos := s.pos + 1, val := (s.val <<< 4) ||| n.setWidth 32 }

theorem step_hexChar {ch : Byte} {n : BitVec 4} (h : HexChar ch n) (hpos : 0 ≤ s.pos)
    (hcontrol : s.control = .reading) : step s ch = digitStep (shifted s n) := by
  obtain ⟨hline, hdigit⟩ := hexChar_digit h
  simp only [step, hcontrol, ne_eq, not_true_eq_false, if_false, not_lt.mpr hpos, hline, hdigit,
    shifted]

theorem run_append (s : State) (t₁ t₂ : List Byte) : run s (t₁ ++ t₂) = run (run s t₁) t₂ := by
  rw [run, List.foldl_append]
  rfl

theorem run_cons (s : State) (ch : Byte) (text : List Byte) :
    run s (ch :: text) = run (step s ch) text := by
  rfl

/-- The word that some digits are shifted into. -/
def shiftIn (v : Word) (ns : List (BitVec 4)) : Word :=
  ns.foldl (fun v n => (v <<< 4) ||| n.setWidth 32) v

theorem shiftIn_append (v : Word) (ns ms : List (BitVec 4)) :
    shiftIn v (ns ++ ms) = shiftIn (shiftIn v ns) ms := by
  rw [shiftIn, List.foldl_append]
  rfl

/-- The digits of a word give the word. -/
theorem shiftIn_hexDigits (n : Nat) {w : Word} (h : w.toNat < 2 ^ (4 * n)) :
    shiftIn 0#32 (hexDigits w n) = w := by
  induction n generalizing w with
  | zero =>
      apply BitVec.eq_of_toNat_eq
      simp at h
      simp [shiftIn, hexDigits, h]
  | succ n ih =>
      have hlt : (w >>> 4).toNat < 2 ^ (4 * n) := by
        rw [BitVec.toNat_ushiftRight, Nat.shiftRight_eq_div_pow]
        apply Nat.div_lt_of_lt_mul
        rw [← Nat.pow_add]
        exact Nat.lt_of_lt_of_eq h (by congr 1; omega)
      rw [hexDigits, shiftIn_append, ih hlt]
      show (w >>> 4) <<< 4 ||| (w.setWidth 4).setWidth 32 = w
      apply BitVec.eq_of_getLsbD_eq
      intro k hk
      simp only [BitVec.getLsbD_or, BitVec.getLsbD_shiftLeft, BitVec.getLsbD_ushiftRight,
        BitVec.getLsbD_setWidth, hk, decide_true, Bool.true_and]
      by_cases h4 : k < 4
      · simp [h4]
      · simp [h4, show 4 + (k - 4) = k by omega]

theorem length_hexDigits (w : Word) (n : Nat) : (hexDigits w n).length = n := by
  induction n generalizing w with
  | zero =>
      rfl
  | succ n ih =>
      rw [hexDigits, List.length_append, ih]
      rfl

/-- Digits that only change the position and the value. -/
theorem run_shift {text : List Byte} {ns : List (BitVec 4)} (h : HexText text ns)
    (hpos : 3 ≤ s.pos) (hcontrol : s.control = .reading)
    (hidle : ∀ p, s.pos < p → p ≤ s.pos + ns.length → ∀ v,
      digitStep { s with pos := p, val := v } = { s with pos := p, val := v }) :
    run s text = { s with pos := s.pos + ns.length, val := shiftIn s.val ns } := by
  induction h generalizing s with
  | nil =>
      simp [run, shiftIn]
  | @cons ch n text ns hch htext ih =>
      have hstep : step s ch = shifted s n := by
        rw [step_hexChar hch (by omega) hcontrol]
        exact hidle (s.pos + 1) (by omega) (by simp) _
      have hrec := ih (s := shifted s n) (by simp [shifted]; omega) hcontrol
        (fun p h₁ h₂ v => by
          have hp := hidle p (by simp [shifted] at h₁; omega)
            (by simp [shifted] at h₂ ⊢; omega) v
          simpa only [shifted] using hp)
      rw [run_cons, hstep, hrec]
      simp only [shifted, shiftIn, List.foldl_cons, List.length_cons, Nat.cast_add, Nat.cast_one]
      congr 1
      omega

end Digits

section Records

variable {s : State}

/-- The loader is between two lines. -/
structure Ready (s : State) : Prop where
  pos : s.pos = -1
  len : s.len = 255
  cnt : s.cnt = 2
  control : s.control = .reading

/-- The letter `S` at the beginning of a line. -/
theorem step_letter (hready : Ready s) : step s 0x53#8 = { s with pos := 0, val := 0#32 } := by
  have hneg : s.pos < 0 := by
    rw [hready.pos]
    decide
  simp only [step, hready.control, hneg, ne_eq, not_true_eq_false, if_false, if_true]
  rfl

/-- The rest of a line end between two lines. -/
theorem run_blank {text : List Byte} (h : ∀ ch ∈ text, ch = 0x0a#8 ∨ ch = 0x0d#8)
    (hready : Ready s) :
    Ready (run s text) ∧ (run s text).mem = s.mem ∧ (run s text).baseAddr = s.baseAddr := by
  induction text generalizing s with
  | nil =>
      exact ⟨hready, rfl, rfl⟩
  | cons ch text ih =>
      have hneg : s.pos < 0 := by
        rw [hready.pos]
        decide
      have hstep : Ready (step s ch) ∧ (step s ch).mem = s.mem ∧
          (step s ch).baseAddr = s.baseAddr := by
        have hcontrol := hready.control
        rcases h ch List.mem_cons_self with rfl | rfl
        · have heq : step s 0x0a#8 = { s with val := 0#32 } := by
            simp only [step, hcontrol, hneg, ne_eq, not_true_eq_false, if_false, if_true]
            rfl
          rw [heq]
          exact ⟨⟨hready.pos, hready.len, hready.cnt, hready.control⟩, rfl, rfl⟩
        · have heq : step s 0x0d#8 = next s := by
            simp only [step, hcontrol, hneg, ne_eq, not_true_eq_false, if_false, if_true]
            rfl
          rw [heq]
          exact ⟨⟨rfl, rfl, rfl, hready.control⟩, rfl, rfl⟩
      obtain ⟨h₁, h₂, h₃⟩ := ih (fun c hc => h c (List.mem_cons_of_mem ch hc)) hstep.1
      rw [run_cons]
      exact ⟨h₁, h₂.trans hstep.2.1, h₃.trans hstep.2.2⟩

/-- A line end after a record. -/
theorem run_lineEnd {eol : List Byte} (h : LineEnd eol) (hpos : 0 ≤ s.pos)
    (hcontrol : s.control = .reading) :
    Ready (run s eol) ∧ (run s eol).mem = s.mem ∧ (run s eol).baseAddr = s.baseAddr := by
  obtain ⟨hne, hall⟩ := h
  obtain ⟨ch, eol, rfl⟩ := List.exists_cons_of_ne_nil hne
  have hstep : step s ch = next s := by
    have hline : 10 ≤ (ch.signExtend 32).toInt ∧ (ch.signExtend 32).toInt ≤ 13 := by
      rcases hall ch List.mem_cons_self with rfl | rfl <;> decide
    simp only [step, hcontrol, ne_eq, not_true_eq_false, if_false, not_lt.mpr hpos, hline,
      and_self, if_true]
  rw [run_cons, hstep]
  exact run_blank (fun c hc => hall c (List.mem_cons_of_mem ch hc)) ⟨rfl, rfl, rfl, hcontrol⟩

/-- The letter `S` and a record type that is read on. -/
theorem run_type (hready : Ready s) (k : Kind) (text : List Byte) :
    run s (0x53#8 :: k.char :: text) =
      run { s with pos := 1, val := 0#32, len := 2 * k.addrBytes + 3 } text := by
  rw [run_cons, run_cons, step_letter hready]
  congr 1
  have hcontrol := hready.control
  simp only [step, hcontrol, ne_eq, not_true_eq_false, if_false, Int.lt_irrefl, digitStep]
  cases k <;> rfl

theorem hexText_split {text : List Byte} {ns ms : List (BitVec 4)} (h : HexText text (ns ++ ms)) :
    ∃ t₁ t₂, text = t₁ ++ t₂ ∧ HexText t₁ ns ∧ HexText t₂ ms :=
  ⟨text.take ns.length, text.drop ns.length, (List.take_append_drop _ _).symm,
    List.forall₂_take_append _ _ _ h, List.forall₂_drop_append _ _ _ h⟩

theorem hexText_two {text : List Byte} {w : Word} (h : HexText text (hexDigits w 2)) :
    ∃ ch₁ ch₂, text = [ch₁, ch₂] ∧ HexChar ch₁ ((w >>> 4).setWidth 4) ∧
      HexChar ch₂ (w.setWidth 4) := by
  rcases h with _ | ⟨hc₁, h⟩
  rcases h with _ | ⟨hc₂, h⟩
  cases h
  exact ⟨_, _, rfl, hc₁, hc₂⟩

/-- A digit that is neither the last of the address nor the second of a data byte. -/
theorem digitStep_idle (hpos : 3 < s.pos) (hlen : 6 ≤ s.len) (haddr : s.pos ≠ s.len)
    (hdata : ¬(s.len < s.pos ∧ s.pos % 2 = 1 ∧ s.pos < s.cnt)) : digitStep s = s := by
  rw [digitStep, if_neg (by omega), if_neg (by omega), if_neg (by omega), if_neg haddr,
    if_neg hdata]

/-- The two digits of the byte count. -/
theorem run_count {text : List Byte} {n : Nat} (h : HexText text (hexDigits (BitVec.ofNat 32 n) 2))
    (hn : n < 256) (hpos : s.pos = 1) (hval : s.val = 0#32) (hlen : 6 ≤ s.len)
    (hcontrol : s.control = .reading) :
    run s text = { s with pos := 3, cnt := s.cnt + 2 * n, val := 0#32 } := by
  have hword : shiftIn 0#32 (hexDigits (BitVec.ofNat 32 n) 2) = BitVec.ofNat 32 n := by
    apply shiftIn_hexDigits
    simp only [BitVec.toNat_ofNat]
    omega
  have hdouble : (BitVec.ofNat 32 n <<< 1).toInt = 2 * n := by
    have hnat : (BitVec.ofNat 32 n <<< 1).toNat = 2 * n := by
      simp only [BitVec.toNat_shiftLeft, BitVec.toNat_ofNat, Nat.shiftLeft_eq]
      omega
    rw [BitVec.toInt_eq_toNat_of_lt (by omega), hnat]
    rfl
  obtain ⟨ch₁, ch₂, rfl, hc₁, hc₂⟩ := hexText_two h
  rw [run_cons, run_cons, step_hexChar hc₁ (by omega) hcontrol]
  have hidle : digitStep (shifted s ((BitVec.ofNat 32 n >>> 4).setWidth 4)) =
      shifted s ((BitVec.ofNat 32 n >>> 4).setWidth 4) := by
    simp only [digitStep, shifted, hpos]
    rw [if_neg (by decide), if_neg (by decide), if_neg (by omega), if_neg (by omega),
      if_neg (by omega)]
  rw [hidle, step_hexChar (s := shifted s _) hc₂ (by simp [shifted, hpos]) hcontrol]
  have hshift : (shifted (shifted s ((BitVec.ofNat 32 n >>> 4).setWidth 4))
      ((BitVec.ofNat 32 n).setWidth 4)).val = BitVec.ofNat 32 n := by
    simp only [shifted, hval]
    exact hword
  simp only [digitStep, hshift, hdouble]
  simp [shifted, hpos, run]

/-- The digits of the address. -/
theorem run_addr {text : List Byte} {a : Word} {n : Nat} (h : HexText text (hexDigits a (n + 1)))
    (ha : a.toNat < 2 ^ (4 * (n + 1))) (hn : 3 ≤ n) (hpos : s.pos = 3) (hval : s.val = 0#32)
    (hlen : s.len = n + 4) (hcontrol : s.control = .reading) :
    run s text = { s with
      pos := n + 4
      val := a
      cp := a
      baseAddr := if s.baseAddr = 0#32 then a else s.baseAddr } := by
  have hword := shiftIn_hexDigits (n + 1) ha
  rw [hexDigits] at h hword
  obtain ⟨t₁, t₂, rfl, h₁, h₂⟩ := hexText_split h
  rcases h₂ with _ | ⟨hc, h₂⟩
  cases h₂
  have hfirst := run_shift h₁ (by omega) hcontrol (fun p hp₁ hp₂ v => by
    rw [length_hexDigits] at hp₂
    refine digitStep_idle ?_ ?_ ?_ ?_ <;> dsimp only <;> omega)
  rw [run_append, hfirst, run_cons, length_hexDigits, hval, hpos]
  rw [shiftIn_append] at hword
  have hvalue : (shiftIn 0#32 (hexDigits (a >>> 4) n) <<< 4 ||| (a.setWidth 4).setWidth 32) = a :=
    hword
  rw [step_hexChar hc]
  · simp only [digitStep, shifted, hvalue, hlen]
    rw [if_neg (by omega), if_neg (by omega), if_neg (by omega), if_pos (by omega)]
    simp only [run, List.foldl_nil, State.mk.injEq, and_true]
    omega
  · dsimp only
    omega
  · exact hcontrol

theorem setWidth_shiftIn (v : Word) (b : Byte) :
    (shiftIn v (hexDigits (b.setWidth 32) 2)).setWidth 8 = b := by
  show ((v <<< 4 ||| ((b.setWidth 32 >>> 4).setWidth 4).setWidth 32) <<< 4 |||
    ((b.setWidth 32).setWidth 4).setWidth 32).setWidth 8 = b
  apply BitVec.eq_of_getLsbD_eq
  intro k hk
  interval_cases k <;> simp

/-- The digits of the data. -/
theorem run_data {data : List Byte} {text : List Byte}
    (h : HexText text (data.flatMap (fun b => hexDigits (b.setWidth 32) 2)))
    (hpos : s.len ≤ s.pos) (hlen : 6 ≤ s.len) (hodd : s.pos % 2 = 1)
    (hcnt : s.pos + 2 * data.length < s.cnt) (hcontrol : s.control = .reading) :
    ∃ v cp, run s text = { s with
      pos := s.pos + 2 * data.length
      val := v
      cp := cp
      mem := storeBytes s.mem s.cp data } := by
  induction data generalizing s text with
  | nil =>
      cases h
      exact ⟨s.val, s.cp, by simp [run, storeBytes]⟩
  | cons b data ih =>
      rw [List.flatMap_cons] at h
      obtain ⟨t₁, t₂, rfl, h₁, h₂⟩ := hexText_split h
      rw [List.length_cons] at hcnt
      push_cast at hcnt
      have hbyte := setWidth_shiftIn s.val b
      obtain ⟨ch₁, ch₂, rfl, hc₁, hc₂⟩ := hexText_two h₁
      -- the first digit of a byte only shifts, the second one stores
      set hi : BitVec 4 := (b.setWidth 32 >>> 4).setWidth 4
      set lo : BitVec 4 := (b.setWidth 32).setWidth 4
      have hstep₁ : step s ch₁ = shifted s hi := by
        rw [step_hexChar hc₁ (by omega) hcontrol]
        refine digitStep_idle ?_ ?_ ?_ ?_ <;> simp only [shifted] <;> omega
      have hstep₂ : step (shifted s hi) ch₂ =
          { shifted (shifted s hi) lo with
            mem := Function.update s.mem s.cp b
            cp := s.cp + 1#32 } := by
        rw [step_hexChar (s := shifted s hi) hc₂ (by simp only [shifted]; omega) hcontrol]
        rw [digitStep, if_neg (by simp only [shifted]; omega),
          if_neg (by simp only [shifted]; omega), if_neg (by simp only [shifted]; omega),
          if_neg (by simp only [shifted]; omega), if_pos (by simp only [shifted]; omega)]
        have hval : (shifted (shifted s hi) lo).val.setWidth 8 = b := hbyte
        rw [hval]
        rfl
      obtain ⟨v, cp, hrest⟩ := ih
        (s := { shifted (shifted s hi) lo with
          mem := Function.update s.mem s.cp b
          cp := s.cp + 1#32 }) h₂ (by simp only [shifted]; omega) hlen
        (by simp only [shifted]; omega) (by simp only [shifted]; omega) hcontrol
      refine ⟨v, cp, ?_⟩
      rw [List.cons_append, List.cons_append, List.nil_append, run_cons, run_cons, hstep₁, hstep₂,
        hrest]
      simp only [shifted, storeBytes, List.length_cons, State.mk.injEq, and_true]
      push_cast
      omega

/-- The two digits of the checksum. -/
theorem run_checksum {text : List Byte} {w : Word} (h : HexText text (hexDigits w 2))
    (hpos : s.len ≤ s.pos) (hlen : 6 ≤ s.len) (hodd : s.pos % 2 = 1)
    (hcnt : s.cnt ≤ s.pos + 2) (hcontrol : s.control = .reading) :
    ∃ v, run s text = { s with pos := s.pos + 2, val := v } := by
  refine ⟨_, run_shift h (by omega) hcontrol (fun p hp₁ hp₂ v => ?_)⟩
  rw [length_hexDigits] at hp₂
  refine digitStep_idle ?_ ?_ ?_ ?_ <;> dsimp only <;> omega

/-- A data record stores its data and remembers the first address that is not zero. -/
theorem run_record {r : Record} {text : List Byte} (h : RecordText r text) (hready : Ready s) :
    Ready (run s text) ∧ (run s text).mem = storeBytes s.mem r.addr r.data ∧
      (run s text).baseAddr = if s.baseAddr = 0#32 then r.addr else s.baseAddr := by
  obtain ⟨body, checksum, eol, rfl, hbody, heol⟩ := h
  obtain ⟨t₁, t₂, rfl, h₁, hrest⟩ := hexText_split hbody
  obtain ⟨t₂, t₃, rfl, h₂, hrest⟩ := hexText_split hrest
  obtain ⟨t₃, t₄, rfl, h₃, h₄⟩ := hexText_split hrest
  have hbytes : 2 ≤ r.kind.addrBytes := by
    cases r.kind <;> decide
  obtain ⟨n, hn⟩ : ∃ n, 2 * r.kind.addrBytes = n + 1 := ⟨2 * r.kind.addrBytes - 1, by omega⟩
  have haddr : r.addr.toNat < 2 ^ (4 * (n + 1)) := by
    rw [← hn]
    exact Nat.lt_of_lt_of_eq r.addr_lt (by congr 1; omega)
  have hcount := r.count_lt
  rw [hn] at h₂
  have hfirst := run_count h₁ hcount
    (s := { s with pos := 1, val := 0#32, len := 2 * r.kind.addrBytes + 3 }) rfl rfl
    (by dsimp only; omega) hready.control
  have hsecond := run_addr h₂ haddr (by omega)
    (s := { s with
      pos := 3
      len := 2 * r.kind.addrBytes + 3
      cnt := s.cnt + 2 * ↑(r.kind.addrBytes + r.data.length + 1)
      val := 0#32 }) rfl rfl (by dsimp only; omega) hready.control
  rw [run_type hready, run_append, run_append, hfirst, run_append, hsecond, run_append]
  obtain ⟨v, cp, hdata⟩ := run_data h₃ (s := { s with
      pos := n + 4
      len := 2 * r.kind.addrBytes + 3
      cnt := s.cnt + 2 * ↑(r.kind.addrBytes + r.data.length + 1)
      val := r.addr
      cp := r.addr
      baseAddr := if s.baseAddr = 0#32 then r.addr else s.baseAddr })
    (by dsimp only; omega) (by dsimp only; omega) (by dsimp only; omega)
    (by dsimp only; rw [hready.cnt]; push_cast; omega) hready.control
  rw [hdata]
  obtain ⟨v', hcheck⟩ := run_checksum h₄ (s := { s with
      pos := n + 4 + 2 * r.data.length
      len := 2 * r.kind.addrBytes + 3
      cnt := s.cnt + 2 * ↑(r.kind.addrBytes + r.data.length + 1)
      val := v
      cp := cp
      baseAddr := if s.baseAddr = 0#32 then r.addr else s.baseAddr
      mem := storeBytes s.mem r.addr r.data })
    (by dsimp only; omega) (by dsimp only; omega) (by dsimp only; omega)
    (by dsimp only; rw [hready.cnt]; push_cast; omega) hready.control
  rw [hcheck]
  exact run_lineEnd heol (by dsimp only; omega) hready.control

end Records

section Files

variable {s : State}

/-- Digits of a line whose type has no data. -/
theorem run_skipped {text : List Byte} {ns : List (BitVec 4)} (h : HexText text ns)
    (hpos : 1 ≤ s.pos) (hlen : s.len < 6) (hcontrol : s.control = .reading) :
    1 ≤ (run s text).pos ∧ (run s text).control = .reading ∧ (run s text).mem = s.mem ∧
      (run s text).baseAddr = s.baseAddr := by
  induction h generalizing s with
  | nil =>
      exact ⟨hpos, hcontrol, rfl, rfl⟩
  | @cons ch n text ns hch htext ih =>
      have hstep := step_hexChar hch (by omega) hcontrol
      have hpos' : (shifted s n).pos = s.pos + 1 := rfl
      have hlen' : (shifted s n).len = s.len := rfl
      rw [digitStep, hpos', hlen', if_neg (by omega), if_pos hlen] at hstep
      rw [run_cons, hstep]
      split_ifs
      · exact ih (by show 1 ≤ s.pos + 1; omega) hlen hcontrol
      · exact ih (by show 1 ≤ s.pos + 1; omega) hlen hcontrol

/-- A header changes nothing. -/
theorem run_header {text : List Byte} (h : HeaderText text) (hready : Ready s) :
    Ready (run s text) ∧ (run s text).mem = s.mem ∧ (run s text).baseAddr = s.baseAddr := by
  obtain ⟨body, ns, eol, rfl, hbody, heol⟩ := h
  have htype : step { s with pos := 0, val := 0#32 } 0x30#8 =
      { s with pos := 1, val := 0#32, len := 5 } := by
    have hcontrol := hready.control
    simp only [step, hcontrol, ne_eq, not_true_eq_false, if_false, Int.lt_irrefl, digitStep]
    rfl
  rw [run_cons, run_cons, step_letter hready, htype, run_append]
  obtain ⟨hpos, hcontrol, hmem, hbase⟩ :=
    run_skipped hbody (s := { s with pos := 1, val := 0#32, len := 5 }) (Int.le_refl 1)
      (by dsimp only; decide) hready.control
  obtain ⟨hready', hmem', hbase'⟩ := run_lineEnd heol (by omega) hcontrol
  exact ⟨hready', hmem'.trans hmem, hbase'.trans hbase⟩

/-- The first address that is not zero. -/
def firstBase (b : Word) (rs : List Record) : Word :=
  rs.foldl (fun b r => if b = 0#32 then r.addr else b) b

theorem run_records {rs : List Record} {texts : List (List Byte)}
    (h : List.Forall₂ RecordText rs texts) (hready : Ready s) :
    Ready (run s texts.flatten) ∧ (run s texts.flatten).mem = storeRecords s.mem rs ∧
      (run s texts.flatten).baseAddr = firstBase s.baseAddr rs := by
  induction h generalizing s with
  | nil =>
      exact ⟨hready, rfl, rfl⟩
  | cons hr _ ih =>
      obtain ⟨hready₁, hmem₁, hbase₁⟩ := run_record hr hready
      obtain ⟨hready₂, hmem₂, hbase₂⟩ := ih hready₁
      rw [List.flatten_cons, run_append]
      refine ⟨hready₂, ?_, ?_⟩
      · rw [hmem₂, hmem₁]
        rfl
      · rw [hbase₂, hbase₁]
        rfl

/-- After the jump nothing is read. -/
theorem run_of_control (h : s.control ≠ .reading) (text : List Byte) : run s text = s := by
  induction text with
  | nil =>
      rfl
  | cons ch text ih =>
      rw [run_cons, step, if_pos h, ih]

theorem run_terminator (hready : Ready s) {t : Byte}
    (ht : t = 0x37#8 ∨ t = 0x38#8 ∨ t = 0x39#8) (rest : List Byte) :
    (run s (0x53#8 :: t :: rest)).mem = s.mem ∧
      (run s (0x53#8 :: t :: rest)).control = .jump s.baseAddr := by
  have hcontrol := hready.control
  have hjump : ∃ v, step { s with pos := 0, val := 0#32 } t =
      { s with pos := 1, val := v, control := .jump s.baseAddr } := by
    rcases ht with rfl | rfl | rfl
    · refine ⟨7#32, ?_⟩
      simp only [step, hcontrol, ne_eq, not_true_eq_false, if_false, Int.lt_irrefl, digitStep]
      rfl
    · refine ⟨8#32, ?_⟩
      simp only [step, hcontrol, ne_eq, not_true_eq_false, if_false, Int.lt_irrefl, digitStep]
      rfl
    · refine ⟨9#32, ?_⟩
      simp only [step, hcontrol, ne_eq, not_true_eq_false, if_false, Int.lt_irrefl, digitStep]
      rfl
  obtain ⟨v, hjump⟩ := hjump
  rw [run_cons, run_cons, step_letter hready, hjump, run_of_control (by simp)]
  exact ⟨rfl, rfl⟩

/-- What the loader does with a file. -/
theorem run_file {rs : List Record} {text : List Byte} (h : FileText rs text)
    (mem : Word → Byte) :
    (run { mem := mem } text).mem = storeRecords mem rs ∧
      (run { mem := mem } text).control = .jump (firstBase 0#32 rs) := by
  obtain ⟨header, texts, t, rest, rfl, hheader, htexts, ht⟩ := h
  have hready : Ready { mem := mem } := ⟨rfl, rfl, rfl, rfl⟩
  have hfirst : Ready (run { mem := mem } header) ∧
      (run { mem := mem } header).mem = mem ∧ (run { mem := mem } header).baseAddr = 0#32 := by
    rcases hheader with rfl | hheader
    · exact ⟨hready, rfl, rfl⟩
    · exact run_header hheader hready
  obtain ⟨hready₁, hmem₁, hbase₁⟩ := hfirst
  obtain ⟨hready₂, hmem₂, hbase₂⟩ := run_records htexts hready₁
  obtain ⟨hmem₃, hcontrol⟩ := run_terminator hready₂ ht rest
  rw [run_append, run_append]
  refine ⟨?_, ?_⟩
  · rw [hmem₃, hmem₂, hmem₁]
  · rw [hcontrol, hbase₂, hbase₁]

theorem firstBase_of_ne {b : Word} (hb : b ≠ 0#32) (rs : List Record) : firstBase b rs = b := by
  induction rs with
  | nil =>
      rfl
  | cons r rs ih =>
      rw [firstBase, List.foldl_cons, if_neg hb]
      exact ih

theorem firstBase_zero (rs : List Record) :
    firstBase 0#32 rs = 0#32 ↔ ∀ r ∈ rs, r.addr = 0#32 := by
  induction rs with
  | nil =>
      simp [firstBase]
  | cons r rs ih =>
      have hcons : firstBase 0#32 (r :: rs) = firstBase r.addr rs := rfl
      rw [hcons, List.forall_mem_cons]
      by_cases hr : r.addr = 0#32
      · rw [hr, ih]
        simp
      · rw [firstBase_of_ne hr]
        simp [hr]

/--
The loader stores every record, and it jumps to the address of the first one
exactly if that is not zero or no record has another address.
-/
theorem loader_decodes {r : Record} {rs : List Record} {text : List Byte}
    (h : FileText (r :: rs) text) (mem : Word → Byte) :
    ((run { mem := mem } text).mem = storeRecords mem (r :: rs) ∧
      (run { mem := mem } text).control = .jump r.addr) ↔
    (r.addr ≠ 0#32 ∨ ∀ q ∈ rs, q.addr = 0#32) := by
  obtain ⟨hmem, hcontrol⟩ := run_file h mem
  have hcons : firstBase 0#32 (r :: rs) = firstBase r.addr rs := rfl
  rw [hmem, hcontrol, hcons]
  by_cases hr : r.addr = 0#32
  · rw [hr, ← firstBase_zero]
    simp
  · rw [firstBase_of_ne hr]
    simp [hr]

/-- The record `S1040400AA4D`. -/
def recordAt400 : Record := ⟨.s1, 0x400#32, [0xaa#8], by decide, by decide⟩

/-- The text `S1040400aa4D`, a line feed, and `S9`. -/
def textAt400 : List Byte :=
  [0x53#8, 0x31#8, 0x30#8, 0x34#8, 0x30#8, 0x34#8, 0x30#8, 0x30#8, 0x61#8, 0x61#8, 0x34#8, 0x44#8,
    0x0a#8, 0x53#8, 0x39#8]

theorem loader_decodes_at400 :
    (run { mem := fun _ => 0#8 } textAt400).control = .jump 0x400#32 := by
  have hfile : FileText [recordAt400] textAt400 := by
    refine ⟨[], [textAt400.take 13], 0x39#8, [], rfl, .inl rfl, .cons ?_ .nil, by decide⟩
    exact ⟨(textAt400.drop 2).take 10, 0x4d#8, [0x0a#8], rfl, by decide, by decide⟩
  exact ((loader_decodes hfile (fun _ => 0#8)).mpr (.inl (by decide))).2

/-- The records `S1040000AA51` and `S1040004BB3C`. -/
def recordsAt0 : List Record :=
  [⟨.s1, 0#32, [0xaa#8], by decide, by decide⟩, ⟨.s1, 4#32, [0xbb#8], by decide, by decide⟩]

/-- Their text, with line feeds and `S9`. -/
def textAt0 : List Byte :=
  [0x53#8, 0x31#8, 0x30#8, 0x34#8, 0x30#8, 0x30#8, 0x30#8, 0x30#8, 0x41#8, 0x41#8, 0x35#8, 0x31#8,
    0x0a#8, 0x53#8, 0x31#8, 0x30#8, 0x34#8, 0x30#8, 0x30#8, 0x30#8, 0x34#8, 0x42#8, 0x42#8, 0x33#8,
    0x43#8, 0x0a#8, 0x53#8, 0x39#8]

/-- A first record at address zero does not count as the first one. -/
theorem loader_decodes_at0 :
    FileText recordsAt0 textAt0 ∧
      (run { mem := fun _ => 0#8 } textAt0).control ≠ .jump 0#32 := by
  refine ⟨?_, by decide⟩
  refine ⟨[], [textAt0.take 13, (textAt0.drop 13).take 13], 0x39#8, [], rfl, .inl rfl,
    .cons ?_ (.cons ?_ .nil), by decide⟩
  · exact ⟨(textAt0.drop 2).take 10, 0x51#8, [0x0a#8], rfl, by decide, by decide⟩
  · exact ⟨(textAt0.drop 15).take 10, 0x3c#8, [0x0a#8], rfl, by decide, by decide⟩

end Files

end Srec
end F32c
