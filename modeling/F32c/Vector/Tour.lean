import F32c.Vector.Port

/-!
# Lists of any size

A list may hold more elements than the unit counts, and its length fields may be wider than
the counter.  `Spot` follows the list on its own: it says which header word or which element
a transaction on the bus may be about.  `Tour` ties the registers of the DMA unit to the spot
reached, for as long as every transaction was about what the unit took it for.
-/

namespace F32c
namespace Vector

variable {V : Nat}

section Lists

/-- The header of a segment of any length; the field for the length holds one less. -/
structure HeaderIn (mem : Mem) (s : Segment) : Prop where
  len : ((mem s.hdr).setWidth 16).toNat + 1 = s.len
  data : wordAddr (mem (s.hdr + 1#28)) = s.data

/-- A finite list of segments, up to the header with a null pointer. -/
def ListIn (mem : Mem) : List Segment → Prop
  | [] => False
  | s :: rest =>
    HeaderIn mem s ∧
      match rest with
      | [] => mem (s.hdr + 2#28) = 0
      | s' :: _ =>
        mem (s.hdr + 2#28) ≠ 0 ∧ wordAddr (mem (s.hdr + 2#28)) = s'.hdr ∧ ListIn mem rest

/-- How many elements of a segment the unit counts: its counter takes `V` bits of the length. -/
def Segment.counted (V : Nat) (s : Segment) : Nat := (s.len - 1) % 2 ^ V + 1

/-- How many elements of the last segment the unit counts. -/
def lastCounted (V : Nat) (segs : List Segment) : Nat :=
  match segs.getLast? with
  | some s => s.counted V
  | none => 0

/--
The lists that the unit can walk.  A load may not go beyond the last element that the unit
counts; a store may, in the last segment.
-/
def Fits (V : Nat) (store : Bool) (segs : List Segment) : Prop :=
  (elements segs.dropLast).length + (if store then 1 else lastCounted V segs) ≤ 2 ^ V

instance (V : Nat) (store : Bool) (segs : List Segment) : Decidable (Fits V store segs) :=
  inferInstanceAs (Decidable (_ ≤ _))

variable {mem : Mem} {s s' : Segment} {rest done segs : List Segment} {store : Bool}

theorem counted_le (hpos : 0 < s.len) : s.counted V ≤ s.len := by
  have := Nat.mod_le (s.len - 1) (2 ^ V)
  unfold Segment.counted
  omega

theorem counted_le_pow (s : Segment) : s.counted V ≤ 2 ^ V :=
  Nat.mod_lt _ (Nat.two_pow_pos V)

/-- Only a segment that is longer than the unit counts has a part that it leaves out. -/
theorem counted_eq (hpos : 0 < s.len) (hlen : s.len ≤ 2 ^ V) : s.counted V = s.len := by
  unfold Segment.counted
  rw [Nat.mod_eq_of_lt (by omega)]
  omega

theorem HeaderIn.pos (h : HeaderIn mem s) : 0 < s.len := by
  have := h.len
  omega

/-- What the unit takes from the length field. -/
theorem HeaderIn.setWidth_len (h : HeaderIn mem s) (hV : V ≤ 16) :
    ((mem s.hdr).setWidth V).toNat + 1 = s.counted V := by
  have hlen := h.len
  rw [BitVec.toNat_setWidth] at hlen
  have hdvd : 2 ^ V ∣ 2 ^ 16 := Nat.pow_dvd_pow 2 hV
  rw [Segment.counted, ← hlen, Nat.add_sub_cancel, BitVec.toNat_setWidth, Nat.mod_mod_of_dvd _ hdvd]

theorem length_elements_append (l l' : List Segment) :
    (elements (l ++ l')).length = (elements l).length + (elements l').length := by
  rw [elements, List.flatMap_append, List.length_append]
  rfl

theorem length_elements_concat (l : List Segment) (s : Segment) :
    (elements (l ++ [s])).length = (elements l).length + s.len := by
  rw [length_elements_append, elements_cons, List.length_append, length_addrs]
  rfl

/-- At the last segment. -/
theorem fits_concat :
    Fits V store (done ++ [s]) ↔
      (elements done).length + (if store then 1 else s.counted V) ≤ 2 ^ V := by
  unfold Fits lastCounted
  rw [List.dropLast_concat, List.getLast?_concat]

/-- A segment that another one follows is complete before the unit has counted to its end. -/
theorem Fits.lt (h : Fits V store (done ++ s :: s' :: rest)) :
    (elements done).length + s.len < 2 ^ V := by
  have hdrop : (done ++ s :: s' :: rest).dropLast = done ++ s :: (s' :: rest).dropLast := by
    rw [List.dropLast_append_of_ne_nil (by simp), List.dropLast_cons_of_ne_nil (by simp)]
  obtain ⟨l, t, ht⟩ : ∃ l t, done ++ s :: s' :: rest = l ++ [t] :=
    ⟨_, _, (List.dropLast_append_getLast (by simp)).symm⟩
  have hl : l = done ++ s :: (s' :: rest).dropLast := by
    rw [← hdrop, ht, List.dropLast_concat]
  rw [ht, fits_concat, hl, length_elements_append, elements_cons, List.length_append,
    length_addrs] at h
  have hpos : 0 < if store then 1 else t.counted V := by
    cases store <;> simp [Segment.counted]
  omega

/-- A list that fits has less than `2 ^ V` elements before each of its segments. -/
theorem Fits.before_lt (h : Fits V store (done ++ s :: rest)) :
    (elements done).length < 2 ^ V := by
  cases rest with
  | nil =>
      rw [fits_concat] at h
      have hpos : 0 < if store then 1 else s.counted V := by
        cases store <;> simp [Segment.counted]
      omega
  | cons s' rest =>
      have := h.lt
      omega

end Lists

section Spots

/-- What a word on the bus is taken for. -/
inductive Use where
  | field (f : BitVec 2)
  | element
deriving DecidableEq

structure Transaction where
  use : Use
  addr : Addr
deriving DecidableEq

/-- What the unit takes a word for: a field of its header registers, or an element. -/
def Dma.use (d : Dma V) : Use :=
  if d.headerMode then
    .field (if d.atEnd then headerNext else d.lengthRemaining.setWidth 2)
  else .element

/-- The transaction that is acknowledged in this clock. -/
def System.transaction (y : System V) (i : Input) : Option Transaction :=
  if y.dataReady i then some ⟨y.dma.use, y.dma.ramAddr⟩ else none

/--
How far a list was followed: `word` words of the header of the first segment and `elem` of
its elements, with `before` elements in the segments before it.
-/
structure Spot where
  before : Nat
  segs : List Segment
  word : Nat
  elem : Nat

/-- The spot where the next header word is looked for: behind a header it is the next one. -/
def Spot.heading (p : Spot) : Spot :=
  match p.segs with
  | [] => p
  | s :: rest => if p.word = 3 then ⟨p.before + s.len, rest, 0, 0⟩ else p

/--
The spot behind a transaction, if it is about the next header word, taken for the field it
is, or about the next element, and that is among the first `2 ^ V` of the list.
-/
def Spot.next (V : Nat) (p : Spot) (t : Transaction) : Option Spot :=
  match t.use with
  | .field f =>
    match p.heading.segs with
    | [] => none
    | s :: _ =>
      if p.heading.word < 3 ∧ f = BitVec.ofNat 2 (2 - p.heading.word) ∧
          t.addr = s.hdr + BitVec.ofNat 28 p.heading.word then
        some { p.heading with word := p.heading.word + 1 }
      else none
  | .element =>
    match p.segs with
    | [] => none
    | s :: _ =>
      if p.word = 3 ∧ p.elem < s.len ∧ p.before + p.elem < 2 ^ V ∧
          t.addr = s.data + BitVec.ofNat 28 p.elem then
        some { p with elem := p.elem + 1 }
      else none

/-- Every transaction of a log takes what is next in the list for what it is. -/
def follow (V : Nat) (segs : List Segment) (log : List Transaction) : Option Spot :=
  log.foldlM (Spot.next V) ⟨0, segs, 0, 0⟩

/-- Header words and elements that are left. -/
def Spot.left (p : Spot) : Nat :=
  match p.segs with
  | [] => 0
  | s :: rest => (3 - p.word) + (s.len - p.elem) + (rest.map fun s => 3 + s.len).sum

variable {p p' : Spot} {t : Transaction} {segs : List Segment} {log : List Transaction}

theorem Spot.left_heading (p : Spot) : p.heading.left ≤ p.left := by
  obtain ⟨before, segs, word, elem⟩ := p
  rcases segs with _ | ⟨s, _ | ⟨s', rest⟩⟩ <;> simp only [Spot.heading]
  · exact Nat.le_refl _
  · split
    · exact Nat.zero_le _
    · exact Nat.le_refl _
  · split
    · simp [Spot.left]
    · exact Nat.le_refl _

theorem Spot.left_next (h : p.next V t = some p') : p'.left < p.left := by
  unfold Spot.next at h
  split at h
  · have hle := p.left_heading
    generalize p.heading = q at h hle
    obtain ⟨before, segs, word, elem⟩ := q
    cases segs with
    | nil => simp at h
    | cons s rest =>
        simp only [Option.ite_none_right_eq_some, Option.some.injEq] at h
        obtain ⟨⟨hword, -⟩, rfl⟩ := h
        simp only [Spot.left] at hle ⊢
        omega
  · obtain ⟨before, segs, word, elem⟩ := p
    cases segs with
    | nil => simp at h
    | cons s rest =>
        simp only [Option.ite_none_right_eq_some, Option.some.injEq] at h
        obtain ⟨⟨-, helem, -⟩, rfl⟩ := h
        simp only [Spot.left]
        omega

theorem follow_concat :
    follow V segs (log ++ [t]) = (follow V segs log).bind (fun p => p.next V t) := by
  unfold follow
  rw [List.foldlM_append]
  cases log.foldlM (Spot.next V) ⟨0, segs, 0, 0⟩ <;> simp

/-- A list comes to its end. -/
theorem length_of_follow (h : follow V segs log = some p) :
    log.length + p.left ≤ (⟨0, segs, 0, 0⟩ : Spot).left := by
  induction log using List.reverseRecOn generalizing p with
  | nil =>
      have hp : (⟨0, segs, 0, 0⟩ : Spot) = p := by simpa [follow] using h
      simp [← hp]
  | append_singleton log t ih =>
      rw [follow_concat, Option.bind_eq_some_iff] at h
      obtain ⟨q, hq, hnext⟩ := h
      have hlt := Spot.left_next hnext
      have hle := ih hq
      rw [List.length_append, List.length_singleton]
      omega

end Spots

section Next

variable {p : Spot} {b n j : Nat} {s : Segment} {rest : List Segment} {a : Addr} {f : BitVec 2}

/-- A header word that is taken for the field it is. -/
theorem Spot.next_field (hp : p.heading = ⟨b, s :: rest, n, 0⟩) (hn : n ≤ 2) :
    p.next V ⟨.field (BitVec.ofNat 2 (2 - n)), s.hdr + BitVec.ofNat 28 n⟩ =
      some ⟨b, s :: rest, n + 1, 0⟩ := by
  unfold Spot.next
  dsimp only
  rw [hp]
  exact if_pos ⟨Nat.lt_succ_of_le hn, rfl, rfl⟩

/-- The first header word taken for the pointer to the next header. -/
theorem Spot.next_wrongField (hp : p.heading = ⟨b, s :: rest, 0, 0⟩) :
    p.next V ⟨.field headerNext, a⟩ = none := by
  unfold Spot.next
  dsimp only
  rw [hp]
  exact if_neg (by rintro ⟨-, hf, -⟩; exact absurd hf (show headerNext ≠ 2#2 by decide))

theorem Spot.next_element (hj : j < s.len) (hb : b + j < 2 ^ V) :
    (⟨b, s :: rest, 3, j⟩ : Spot).next V ⟨.element, s.data + BitVec.ofNat 28 j⟩ =
      some ⟨b, s :: rest, 3, j + 1⟩ := by
  exact if_pos ⟨rfl, hj, hb, rfl⟩

/-- An element beyond the first `2 ^ V` of the list. -/
theorem Spot.next_beyond (hb : 2 ^ V ≤ b + j) :
    (⟨b, s :: rest, 3, j⟩ : Spot).next V ⟨.element, a⟩ = none := by
  exact if_neg (by rintro ⟨-, -, hlt, -⟩; exact absurd hlt (Nat.not_lt.2 hb))

end Next

section Tour

/--
The unit at the spot `p` of the list: a word of a header is next, or an element.  The count of
elements is right until a segment is left out in part; then the list has passed `2 ^ V`.
-/
inductive Tour (mem : Mem) (segs : List Segment) (store : Bool) (d : Dma V) (p : Spot) : Prop
  | header (n : Nat) (s : Segment) (rest done : List Segment) (hn : n ≤ 2)
      (hp : p.heading = ⟨(elements done).length, s :: rest, n, 0⟩)
      (hsplit : segs = done ++ s :: rest) (hlist : ListIn mem (s :: rest))
      (hactive : Active store d) (hstate : d.state = .waitReadDataAck)
      (hmode : d.headerMode = true) (hwrite : d.dataWrite = false)
      (haddr : d.ramAddr = s.hdr + BitVec.ofNat 28 n)
      (hlen : d.lengthRemaining = BitVec.ofNat V (2 - n))
      (hlength : 1 ≤ n → d.header headerDataLength = mem s.hdr)
      (hdata : 2 ≤ n → d.header headerDataAddr = mem (s.hdr + 1#28))
      (hbram : d.bramAddr.toNat ≤ 2 ^ V) (hroom : 1 ≤ n → d.bramAddr.toNat < 2 ^ V)
      (hcount : (elements done).length = d.bramAddr.toNat ∨ 2 ^ V ≤ (elements done).length)
  | data (j : Nat) (s : Segment) (rest done : List Segment) (hj : j < s.counted V)
      (hp : p = ⟨(elements done).length, s :: rest, 3, j⟩)
      (hsplit : segs = done ++ s :: rest) (hlist : ListIn mem (s :: rest))
      (hactive : Active store d)
      (hstate : d.state = if store then .waitWriteDataAck else .waitReadDataAck)
      (hmode : d.headerMode = false) (hwrite : d.dataWrite = store)
      (haddr : d.ramAddr = s.data + BitVec.ofNat 28 j)
      (hlen : d.lengthRemaining.toNat + (j + 1) = s.counted V)
      (hnext : d.header headerNext = mem (s.hdr + 2#28))
      (hbram : d.bramAddr.toNat ≤ 2 ^ V)
      (hcount : d.bramAddr.toNat = (elements done).length + j + (if store then 1 else 0) ∨
        2 ^ V ≤ (elements done).length)

variable {mem : Mem} {segs : List Segment} {store : Bool} {d : Dma V} {i : DmaInput} {p : Spot}

theorem Tour.active (hw : Tour mem segs store d p) : Active store d := by
  cases hw <;> assumption

theorem Tour.dataWrite_eq (hw : Tour mem segs store d p) :
    d.dataWrite = (store && !d.headerMode) := by
  cases hw with
  | header n s rest done _ _ _ _ _ _ hmode hwrite => simp [hmode, hwrite]
  | data j s rest done _ _ _ _ _ _ hmode hwrite => simp [hmode, hwrite]

/-- A header is read from where it lies. -/
theorem Tour.header_mem (hw : Tour mem segs store d p) (hmode : d.headerMode = true) :
    d.ramAddr ∈ headers segs := by
  cases hw with
  | data j s rest done _ _ _ _ _ _ hmode' => simp [hmode] at hmode'
  | header n s rest done hn _ hsplit _ _ _ _ _ haddr =>
      have hs : s ∈ segs := by simp [hsplit]
      refine List.mem_flatMap.2 ⟨s, hs, ?_⟩
      rw [haddr]
      interval_cases n <;> simp

/-- An element of a list lies among its elements, whether the unit counts it or not. -/
theorem Tour.element_mem (hw : Tour mem segs store d p) (hmode : d.headerMode = false) :
    d.ramAddr ∈ elements segs := by
  cases hw with
  | header n s rest done _ _ _ _ _ _ hmode' => simp [hmode] at hmode'
  | data j s rest done hj _ hsplit hlist _ _ _ _ haddr =>
      have hs : s ∈ segs := by simp [hsplit]
      have hle := counted_le (V := V) hlist.1.pos
      refine List.mem_flatMap.2 ⟨s, hs, ?_⟩
      rw [haddr]
      exact List.mem_map.2 ⟨j, List.mem_range.2 (by omega), rfl⟩

theorem Tour.control_eq (hw : Tour mem segs store d p) :
    d.control i =
      if i.dataReady then
        if store && !d.headerMode then d.prepare.writeAck else d.prepare.readAck i
      else d.prepare := by
  apply control_working
  cases hw with
  | header n s rest done _ _ _ _ _ hstate hmode => simp [hstate, hmode]
  | data j s rest done _ _ _ _ _ hstate hmode => simp [hstate, hmode]

/-- The tour does not look at the FIFO. -/
theorem Tour.congr {d' : Dma V} (hw : Tour mem segs store d p)
    (h : d' =
      { d with
        wdataFifo := d'.wdataFifo
        wdataFifoReset := d'.wdataFifoReset
        indexIn := d'.indexIn
        bramRdataReady := d'.bramRdataReady }) : Tour mem segs store d' p := by
  rw [h]
  cases hw with
  | header n s rest done hn hp hsplit hlist hactive hstate hmode hwrite haddr hlen hlength hdata
      hbram hroom hcount =>
      exact .header n s rest done hn hp hsplit hlist ⟨hactive.1, hactive.2, hactive.3, hactive.4⟩
        hstate hmode hwrite haddr hlen hlength hdata hbram hroom hcount
  | data j s rest done hj hp hsplit hlist hactive hstate hmode hwrite haddr hlen hnext hbram
      hcount =>
      exact .data j s rest done hj hp hsplit hlist ⟨hactive.1, hactive.2, hactive.3, hactive.4⟩
        hstate hmode hwrite haddr hlen hnext hbram hcount

theorem Tour.step (hw : Tour mem segs store (d.control i) p) :
    Tour mem segs store (d.step i) p := by
  apply hw.congr
  unfold Dma.step
  split
  · rfl
  · split <;> rfl

theorem Tour.prepare (hw : Tour mem segs store d p) : Tour mem segs store d.prepare p := by
  apply hw.congr
  rw [Dma.prepare, hw.active.next]

/-- The safety measure of the source holds from `2 ^ V` elements on. -/
theorem atEnd_of_full (hfull : 2 ^ V ≤ d.bramAddr.toNat) : d.atEnd = true := by
  have h : d.bramAddr.msb = true := by
    rw [BitVec.msb_eq_true_iff_two_mul_ge, Nat.pow_succ]
    omega
  rw [Dma.atEnd, h, Bool.true_or]

/-- The unit ends a segment where its counter does, or where the count of elements is full. -/
theorem atEnd_iff {j n : Nat} (hlen : d.lengthRemaining.toNat + (j + 1) = n) :
    d.atEnd = true ↔ 2 ^ V ≤ d.bramAddr.toNat ∨ j + 1 = n := by
  by_cases hfull : 2 ^ V ≤ d.bramAddr.toNat
  · simp [atEnd_of_full hfull, hfull]
  · rw [atEnd_eq (by omega), beq_iff_eq, ← BitVec.toNat_inj, BitVec.toNat_zero]
    omega

variable (hV : 2 ≤ V ∧ V ≤ 16)

include hV in
/--
A header word is read.  With the count of elements at `2 ^ V` the first word of a header is
taken for the last one.
-/
theorem Tour.readHeader (hw : Tour mem segs store d p) (hmode : d.headerMode = true)
    (hin : i.dataIn = mem d.ramAddr) :
    (∃ p', p.next V ⟨d.use, d.ramAddr⟩ = some p' ∧ Tour mem segs store (d.readAck i) p') ∨
      p.next V ⟨d.use, d.ramAddr⟩ = none ∧ ¬Fits V store segs := by
  cases hw with
  | data j s rest done _ _ _ _ _ _ hmode' => simp [hmode] at hmode'
  | header n s rest done hn hp hsplit hlist hactive hstate _ hwrite haddr hlen hlength hdata hbram
      hroom hcount =>
      by_cases hfull : 2 ^ V ≤ d.bramAddr.toNat
      · right
        obtain rfl : n = 0 := by
          by_contra hne
          have := hroom (by omega)
          omega
        have huse : d.use = .field headerNext := by
          rw [Dma.use, if_pos hmode, if_pos (atEnd_of_full hfull)]
        refine ⟨by rw [huse, Spot.next_wrongField hp], fun hfits => ?_⟩
        have := (hsplit ▸ hfits).before_lt
        omega
      have hend := @atEnd_eq V d (by omega)
      rw [hlen] at hend
      left
      refine ⟨⟨(elements done).length, s :: rest, n + 1, 0⟩, ?_, ?_⟩
      · have huse : d.use = .field (BitVec.ofNat 2 (2 - n)) := by
          rw [Dma.use, if_pos hmode]
          by_cases hn1 : n ≤ 1
          · obtain ⟨hne, -, hidx⟩ := ofNat_two_sub hV.1 hn1
            rw [if_neg (by simpa [hend] using hne), hlen, hidx]
          · obtain rfl : n = 2 := by omega
            rw [if_pos (by simpa using hend)]
        rw [huse, haddr, Spot.next_field hp hn]
      by_cases hn1 : n ≤ 1
      · obtain ⟨hne, hsub, hidx⟩ := ofNat_two_sub hV.1 hn1
        have hgo : d.atEnd = false := by simpa [hend] using hne
        rw [Dma.readAck, if_neg (by simp [hgo]), if_pos hmode]
        refine .header (n + 1) s rest done (by omega) ?_ hsplit hlist
          ⟨hactive.1, hactive.2, hactive.3, hactive.4⟩ hstate hmode hwrite ?_ ?_ ?_ ?_ hbram
          (fun _ => Nat.lt_of_not_le hfull) hcount
        · exact if_neg (Nat.ne_of_lt (Nat.lt_of_le_of_lt (Nat.succ_le_succ hn1) (by decide)))
        · dsimp only
          rw [haddr, add_ofNat_succ]
        · dsimp only
          rw [hlen, ← hsub]
          rfl
        · intro _
          dsimp only
          rw [hlen, hidx]
          obtain rfl | rfl : n = 0 ∨ n = 1 := by omega
          · rw [hin, haddr]
            simp
          · rw [Function.update_of_ne (by decide)]
            exact hlength (Nat.le_refl 1)
        · intro h2
          obtain rfl : n = 1 := by omega
          dsimp only
          rw [hlen, hidx, hin, haddr]
          simp
      · obtain rfl : n = 2 := by omega
        have hgo : d.atEnd = true := by simpa using hend
        have hheader := hlist.1
        have hpos : 0 < s.counted V := Nat.succ_pos _
        have hdata0 : wordAddr (d.header headerDataAddr) = s.data + BitVec.ofNat 28 0 := by
          rw [hdata (Nat.le_refl 2), hheader.data]
          simp
        have hlen0 : ((d.header headerDataLength).setWidth V).toNat + (0 + 1) = s.counted V := by
          rw [hlength (by omega)]
          exact hheader.setWidth_len hV.2
        have hnext0 : Function.update d.header headerNext i.dataIn headerNext =
            mem (s.hdr + 2#28) := by
          rw [Function.update_self, hin, haddr]
        rw [Dma.readAck, if_pos hgo, if_pos hmode]
        cases store with
        | false =>
            rw [if_neg (by simp [hactive.storeMode])]
            refine .data 0 s rest done hpos rfl hsplit hlist
              ⟨hactive.1, hactive.2, hactive.3, hactive.4⟩ hstate rfl hwrite hdata0 hlen0 hnext0
              hbram ?_
            simpa using hcount.imp_left Eq.symm
        | true =>
            have hsucc : (d.bramAddr + 1).toNat = d.bramAddr.toNat + 1 :=
              toNat_succ rfl (by omega)
            rw [if_pos (by simp [hactive.storeMode])]
            refine .data 0 s rest done hpos rfl hsplit hlist
              ⟨hactive.1, hactive.2, hactive.3, hactive.4⟩ rfl rfl rfl hdata0 hlen0 hnext0 ?_ ?_
            · dsimp only
              omega
            · dsimp only
              rw [hsucc, if_pos rfl]
              omega

include hV in
/-- An element that is not the last one that the unit counts. -/
theorem tour_within {j : Nat} {s : Segment} {rest done : List Segment}
    (hj : j + 1 < s.counted V) (hsplit : segs = done ++ s :: rest) (hlist : ListIn mem (s :: rest))
    (hactive : Active store d)
    (hstate : d.state = if store then .waitWriteDataAck else .waitReadDataAck)
    (hmode : d.headerMode = false) (hwrite : d.dataWrite = store)
    (haddr : d.ramAddr = s.data + BitVec.ofNat 28 j)
    (hlen : d.lengthRemaining.toNat + (j + 1) = s.counted V)
    (hnext : d.header headerNext = mem (s.hdr + 2#28)) (hgo : d.atEnd = false)
    (hroom : d.bramAddr.toNat < 2 ^ V)
    (hcount : d.bramAddr.toNat = (elements done).length + j + if store then 1 else 0) :
    Tour mem segs store (d.elementAck store i) ⟨(elements done).length, s :: rest, 3, j + 1⟩ := by
  have haddr' : d.ramAddr + 1 = s.data + BitVec.ofNat 28 (j + 1) := by
    rw [haddr, add_ofNat_succ]
  have hlen' : (d.lengthRemaining - 1).toNat + (j + 1 + 1) = s.counted V := by
    rw [toNat_pred hV.1 (show d.lengthRemaining.toNat = s.counted V - (j + 2) + 1 by omega)]
    omega
  have hbram' : (d.bramAddr + 1).toNat = d.bramAddr.toNat + 1 := toNat_succ rfl hroom
  have hcount' : (d.bramAddr + 1).toNat =
      (elements done).length + (j + 1) + if store then 1 else 0 := by omega
  cases store with
  | false =>
      rw [Dma.elementAck, if_neg (by simp), Dma.readAck, if_neg (by simp [hgo]),
        if_neg (by simp [hmode])]
      exact .data (j + 1) s rest done hj rfl hsplit hlist
        ⟨hactive.1, hactive.2, hactive.3, hactive.4⟩ hstate hmode hwrite haddr' hlen' hnext
        (by dsimp only; omega) (.inl hcount')
  | true =>
      rw [Dma.elementAck, if_pos rfl, Dma.writeAck, if_neg (by simp [hgo])]
      exact .data (j + 1) s rest done hj rfl hsplit hlist
        ⟨hactive.1, hactive.2, hactive.3, hactive.4⟩ hstate hmode hwrite haddr' hlen' hnext
        (by dsimp only; omega) (.inl hcount')

/-- The last element that the unit counts of a segment, before another one. -/
theorem tour_jump {j : Nat} {s s' : Segment} {rest done : List Segment}
    (hsplit : segs = done ++ s :: s' :: rest) (hlist : ListIn mem (s :: s' :: rest))
    (hactive : Active store d)
    (hstate : d.state = if store then .waitWriteDataAck else .waitReadDataAck)
    (hmode : d.headerMode = false) (hwrite : d.dataWrite = store)
    (hnext : d.header headerNext = mem (s.hdr + 2#28)) (hgo : d.atEnd = true)
    (hb : (elements done).length + j < 2 ^ V)
    (hcount : d.bramAddr.toNat = (elements done).length + j + if store then 1 else 0)
    (hend : s.len = j + 1 ∨ 2 ^ V ≤ (elements done).length + s.len) :
    Tour mem segs store (d.elementAck store i)
      ⟨(elements done).length, s :: s' :: rest, 3, j + 1⟩ := by
  obtain ⟨-, hptr, hhdr, hlist'⟩ := hlist
  rw [← hnext] at hptr hhdr
  have hsplit' : segs = (done ++ [s]) ++ s' :: rest := by simp [hsplit]
  have hlength := length_elements_concat done s
  have hp : (⟨(elements done).length, s :: s' :: rest, 3, j + 1⟩ : Spot).heading =
      ⟨(elements (done ++ [s])).length, s' :: rest, 0, 0⟩ := by
    rw [hlength]
    rfl
  have haddr' : wordAddr (d.header headerNext) = s'.hdr + BitVec.ofNat 28 0 := by
    rw [hhdr]
    simp
  cases store with
  | false =>
      rw [if_neg (by simp)] at hcount
      have hbram' : (d.bramAddr + 1).toNat = d.bramAddr.toNat + 1 := toNat_succ rfl (by omega)
      rw [Dma.elementAck, if_neg (by simp), Dma.readAck, if_pos hgo, if_neg (by simp [hmode]),
        if_neg hptr]
      refine .header 0 s' rest (done ++ [s]) (by omega) hp hsplit' hlist'
        ⟨hactive.1, hactive.2, hactive.3, hactive.4⟩ hstate rfl hwrite haddr' rfl (by omega)
        (by omega) ?_ (by omega) ?_
      · change (d.bramAddr + 1).toNat ≤ 2 ^ V
        omega
      · change _ = (d.bramAddr + 1).toNat ∨ _
        omega
  | true =>
      rw [if_pos rfl] at hcount
      rw [Dma.elementAck, if_pos rfl, Dma.writeAck, if_pos hgo, if_neg hptr]
      refine .header 0 s' rest (done ++ [s]) (by omega) hp hsplit' hlist'
        ⟨hactive.1, hactive.2, hactive.3, hactive.4⟩ rfl rfl rfl haddr' rfl (by omega)
        (by omega) ?_ (by omega) ?_
      · change d.bramAddr.toNat ≤ 2 ^ V
        omega
      · change _ = d.bramAddr.toNat ∨ _
        omega

include hV in
/--
An element is moved.  If it is among the first `2 ^ V`, the unit goes on to the next one, to
the next header or to the end; if not, the list is longer than the unit can walk.
-/
theorem Tour.moveElement (hw : Tour mem segs store d p) (hmode : d.headerMode = false) :
    (∃ p', p.next V ⟨d.use, d.ramAddr⟩ = some p' ∧
      (Tour mem segs store (d.elementAck store i) p' ∨
        Ending store (d.elementAck store i) ∧ Fits V store segs)) ∨
      p.next V ⟨d.use, d.ramAddr⟩ = none ∧ ¬Fits V store segs := by
  have huse : d.use = .element := by rw [Dma.use, if_neg (by simp [hmode])]
  rw [huse]
  cases hw with
  | header n s rest done _ _ _ _ _ _ hmode' => simp [hmode] at hmode'
  | data j s rest done hj hp hsplit hlist hactive hstate _ hwrite haddr hlen hnext hbram hcount =>
      have hle := counted_le (V := V) hlist.1.pos
      have hpow := counted_le_pow (V := V) s
      rw [hp]
      by_cases hb : (elements done).length + j < 2 ^ V
      · left
        have hcount := hcount.resolve_right (by omega)
        refine ⟨_, haddr ▸ Spot.next_element (by omega) hb, ?_⟩
        cases hgo : d.atEnd with
        | false =>
            have hnot : ¬(2 ^ V ≤ d.bramAddr.toNat ∨ j + 1 = s.counted V) := by
              rw [← atEnd_iff hlen, hgo]
              simp
            exact .inl (tour_within hV (by omega) hsplit hlist hactive hstate hmode hwrite haddr
              hlen hnext hgo (by omega) hcount)
        | true =>
            have hlast := (atEnd_iff hlen).1 hgo
            cases rest with
            | nil =>
                right
                refine ⟨elementAck_last hactive hmode hwrite hgo (hnext.trans hlist.2), ?_⟩
                rw [hsplit, fits_concat]
                cases store with
                | false =>
                    rw [if_neg (by simp)] at hcount ⊢
                    omega
                | true =>
                    rw [if_pos rfl]
                    omega
            | cons s' rest =>
                left
                refine tour_jump hsplit hlist hactive hstate hmode hwrite hnext hgo hb hcount ?_
                have hall := counted_eq (V := V) hlist.1.pos
                cases store with
                | false =>
                    rw [if_neg (by simp)] at hcount
                    omega
                | true =>
                    rw [if_pos rfl] at hcount
                    omega
      · right
        refine ⟨Spot.next_beyond (Nat.le_of_not_lt hb), fun hfits => ?_⟩
        rw [hsplit] at hfits
        have hbefore := hfits.before_lt
        have hcount := hcount.resolve_right (by omega)
        cases rest with
        | nil =>
            rw [fits_concat] at hfits
            cases store <;> simp at hfits hcount <;> omega
        | cons s' rest =>
            have := hfits.lt
            omega

theorem Tour.step_wait (hw : Tour mem segs store d p) (hready : i.dataReady = false) :
    Tour mem segs store (d.step i) p := by
  apply Tour.step
  rw [hw.control_eq, if_neg (by simp [hready])]
  exact hw.prepare

theorem prepare_use : d.prepare.use = d.use := by
  rfl

include hV in
theorem Tour.step_header (hw : Tour mem segs store d p) (hready : i.dataReady = true)
    (hmode : d.headerMode = true) (hin : i.dataIn = mem d.ramAddr) :
    (∃ p', p.next V ⟨d.use, d.ramAddr⟩ = some p' ∧ Tour mem segs store (d.step i) p') ∨
      p.next V ⟨d.use, d.ramAddr⟩ = none ∧ ¬Fits V store segs := by
  have hcontrol : d.control i = d.prepare.readAck i := by
    rw [hw.control_eq, if_pos hready, if_neg (by simp [hmode])]
  have hmove := hw.prepare.readHeader hV hmode hin
  rw [← hcontrol, prepare_use] at hmove
  rcases hmove with ⟨p', hp, htour⟩ | hlost
  · exact .inl ⟨p', hp, htour.step⟩
  · exact .inr hlost

include hV in
theorem Tour.step_element (hw : Tour mem segs store d p) (hready : i.dataReady = true)
    (hmode : d.headerMode = false) :
    (∃ p', p.next V ⟨d.use, d.ramAddr⟩ = some p' ∧
      (Tour mem segs store (d.step i) p' ∨ Ending store (d.step i) ∧ Fits V store segs)) ∨
      p.next V ⟨d.use, d.ramAddr⟩ = none ∧ ¬Fits V store segs := by
  have hcontrol : d.control i = d.prepare.elementAck store i := by
    rw [hw.control_eq, if_pos hready, Dma.elementAck]
    simp [hmode]
  have hmove := hw.prepare.moveElement (i := i) hV hmode
  rw [← hcontrol, prepare_use] at hmove
  rcases hmove with ⟨p', hp, htour | ⟨hend, hfits⟩⟩ | hlost
  · exact .inl ⟨p', hp, .inl htour.step⟩
  · exact .inl ⟨p', hp, .inr ⟨hend.step, hfits⟩⟩
  · exact .inr hlost

/-- A request takes the DMA unit to the first word of a list of any size. -/
theorem tour_request {s : Segment} {rest : List Segment} (h : DmaRest d) (hreq : i.request = true)
    (hlist : ListIn mem (s :: rest)) (haddr : i.addr = s.hdr) :
    Tour mem (s :: rest) i.storeMode (d.step i) ⟨0, s :: rest, 0, 0⟩ := by
  apply Tour.step
  rw [control_request h hreq]
  refine .header 0 s rest [] (by omega) rfl rfl hlist ⟨rfl, rfl, rfl, rfl⟩ rfl rfl h.dataWrite ?_
    rfl (by omega) (by omega) ?_ (by omega) (.inl ?_)
  · simp [haddr]
  · simp
  · simp [elements]

end Tour

end Vector
end F32c
