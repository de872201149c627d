import F32c.Dvi.Fetch

/-!
# A frame on the display

A burst of the memory goes on from the address at its acceptance, while the address
register of the display may have left the row of consecutive addresses.  This module says
which words are delivered, that the FIFO has room for them, and what is shown of them.
-/

namespace F32c
namespace Dvi

open Mode

variable {m : Mode} {mem : Addr → Word} {y : System} {i : Input}
variable {words : List Word} {pixels : List Rgb}

/-- The place in the framebuffer of the `n`-th word that is delivered. -/
def Mode.burstWord (m : Mode) (n : Nat) : Nat :=
  m.fetchedWord (burstWords * (n / burstWords)) + n % burstWords

/-- The words of a frame whose lines fit the counter of the words. -/
def Mode.countedWords (m : Mode) : Nat :=
  if m.hlim.toNat = m.lineWords then m.frameWords else 0

theorem lt_countedWords {n : Nat} :
    n < m.countedWords ↔ m.hlim.toNat = m.lineWords ∧ n < m.frameWords := by
  rw [Mode.countedWords]
  split
  · rename_i h
    simp [h]
  · rename_i h
    simp [h]

/-- The word of this clock. -/
def System.delivered (mem : Addr → Word) (y : System) (i : Input) : Option Word :=
  match y.burst with
  | some (a, n) => if i.deliver then some (mem (a + BitVec.ofNat 30 n)) else none
  | none => none

/-- The pixel of this clock. -/
def System.pixel (m : Mode) (mem : Addr → Word) (y : System) (i : Input) : Option Rgb :=
  y.scan.pixelOut m (y.scanInput mem i)

/-- A burst that has come to the word `n`, with `level` words in the FIFO. -/
def BurstAt (m : Mode) (n level : Nat) : Option (Addr × Nat) → Prop
  | none => level ≤ 480 ∧ n % burstWords = 0
  | some (a, k) => k < burstWords ∧ n % burstWords = k ∧ level + burstWords ≤ 480 + k ∧
      (n < m.countedWords →
        a = m.dmaBase + BitVec.ofNat 30 (m.fetchedWord (burstWords * (n / burstWords))))

/-- A frame under way: the words that were delivered and the pixels that were entered. -/
structure Scanning (m : Mode) (mem : Addr → Word) (y : System) (words : List Word)
    (pixels : List Rgb) : Prop where
  unpacked : Unpacked m y.scan words pixels
  fetching : words.length < m.countedWords → Fetching m y.scan words.length
  burst : BurstAt m words.length (level m words pixels) y.burst
  content : ∀ n, n < words.length → n < m.countedWords →
    wordOf words n = mem (m.dmaBase + BitVec.ofNat 30 (m.burstWord n))

section Step

theorem Scanning.level_le (hs : Scanning m mem y words pixels) : level m words pixels ≤ 480 := by
  have hburst := hs.burst
  cases hb : y.burst with
  | none =>
      rw [hb] at hburst
      exact hburst.1
  | some b =>
      obtain ⟨a, k⟩ := b
      rw [hb] at hburst
      obtain ⟨hk, -, hlevel, -⟩ := hburst
      omega

/-- The first FIFO does not overflow. -/
theorem Scanning.room (hs : Scanning m mem y words pixels) :
    y.scan.dmaFifoHead + 1 ≠ y.scan.dmaFifoTail := by
  have hlevel := hs.level_le
  have hle := hs.unpacked.tail_le
  rw [level] at hlevel
  rw [hs.unpacked.head, hs.unpacked.tail, ofNat_succ, Ne, fifoIndex_inj (by omega) (by omega)]
  omega

/-- With a request there is room for two more bursts. -/
theorem mayFetch_level (hs : Scanning m mem y words pixels) (hb : y.burst = none)
    (hmay : y.scan.dmaFifoMayFetch (y.scanInput mem i) = true) :
    level m words pixels ≤ 448 := by
  have hburst := hs.burst
  rw [hb] at hburst
  obtain ⟨hlevel, haligned⟩ := hburst
  have hle := hs.unpacked.tail_le
  rw [level] at *
  simp only [Scan.dmaFifoMayFetch, Bool.and_eq_true, bne_iff_ne] at hmay
  have hblock := hmay.2
  rw [hs.unpacked.head, hs.unpacked.tail, Ne, ← BitVec.toNat_inj, BitVec.toNat_add,
    BitVec.extractLsb'_toNat, BitVec.extractLsb'_toNat, BitVec.toNat_ofNat, BitVec.toNat_ofNat,
    Nat.shiftRight_eq_div_pow, Nat.shiftRight_eq_div_pow] at hblock
  generalize pixels.length / m.wordPixels = q at *
  rw [show BitVec.toNat (1 : BitVec 4) = 1 from rfl] at hblock
  change words.length % 32 = 0 at haligned
  by_contra hmore
  apply hblock
  omega

/-- The display takes what is delivered. -/
theorem scanInput_delivered :
    (y.scanInput mem i).dataReady = (y.delivered mem i).isSome ∧
      ∀ w, y.delivered mem i = some w → (y.scanInput mem i).dataOut = w := by
  rw [System.delivered, System.scanInput]
  cases y.burst with
  | none => simp
  | some b =>
      obtain ⟨a, k⟩ := b
      cases hd : i.deliver with
      | false => simp
      | true => simp

/-- The clock of the display during a frame. -/
theorem control_eq (hon : m.bpp ≠ .off) (hgap : i.frameGap = false) :
    y.scan.control m (y.scanInput mem i) =
      match y.pixel m mem i with
      | some color =>
        (match y.delivered mem i with
          | some w => y.scan.takeWord m w
          | none => y.scan).putPixel m color
      | none =>
        match y.delivered mem i with
        | some w => y.scan.takeWord m w
        | none => y.scan := by
  obtain ⟨hready, hout⟩ := @scanInput_delivered mem y i
  have hgap' : ¬(y.scanInput mem i).frameGap = true := by
    change ¬i.frameGap = true
    simp [hgap]
  rw [Scan.control, if_neg hon, if_neg hgap', hready, System.pixel]
  dsimp only
  cases hd : y.delivered mem i with
  | none => rfl
  | some w =>
      rw [hout w hd]
      rfl

/-- A pixel is entered if one is asked for and there is a word. -/
theorem pixel_eq (hs : Scanning m mem y words pixels) (hon : m.bpp ≠ .off)
    (hgap : i.frameGap = false) :
    y.pixel m mem i =
      if y.scan.pixelFifoNeedsMorePixels (y.scanInput mem i) = true ∧
          pixels.length / m.wordPixels < words.length then
        some (m.colorOf (wordOf words) pixels.length)
      else none := by
  have hlevel := hs.level_le
  have hdata := hs.unpacked.hasData_iff (by omega)
  have hframe : ¬((m.bpp = .off) || (y.scanInput mem i).frameGap) = true := by
    change ¬((m.bpp = .off) || i.frameGap) = true
    simp [hon, hgap]
  rw [System.pixel, Scan.pixelOut, if_neg hframe]
  by_cases hgo : y.scan.pixelFifoNeedsMorePixels (y.scanInput mem i) = true ∧
      pixels.length / m.wordPixels < words.length
  · rw [if_pos hgo, if_pos (by rw [Bool.and_eq_true, hdata]; exact hgo),
      hs.unpacked.pixel_eq hgo.2]
  · rw [if_neg hgo, if_neg (by rw [Bool.and_eq_true, hdata]; exact hgo)]

theorem moveOn_hlim (m : Mode) (s : Scan) : (s.moveOn m).dmaHlim = s.dmaHlim := by
  unfold Scan.moveOn Scan.lineEnd
  dsimp only
  split_ifs <;> rfl

/-- The counters do not depend on the FIFOs. -/
theorem Fetching.congr {s s' : Scan} {n : Nat} (hf : Fetching m s n) (hlim : s'.dmaHlim = m.hlim)
    (hcur : s'.dmaCur = s.dmaCur) (hhcnt : s'.dmaHcnt = s.dmaHcnt) (hvcnt : s'.dmaVcnt = s.dmaVcnt)
    (hfield : s'.dmaFieldCnt = s.dmaFieldCnt) (hrepeat : s'.repeatLine = s.repeatLine) :
    Fetching m s' n :=
  ⟨hlim, hcur.trans hf.cur, hhcnt.trans hf.hcnt, hvcnt.trans hf.vcnt, hfield.trans hf.field,
    hrepeat.trans hf.repeatLine⟩

theorem Unpacked.congr {s s' : Scan} (hu : Unpacked m s words pixels)
    (hincr : s'.pixelBitposIncr = m.bitposIncr) (hhead : s'.dmaFifoHead = s.dmaFifoHead)
    (htail : s'.dmaFifoTail = s.dmaFifoTail) (hfifo : s'.dmaFifo = s.dmaFifo)
    (hbit : s'.pixelBitpos = s.pixelBitpos) (hskip : s'.skipPixel = s.skipPixel) :
    Unpacked m s' words pixels :=
  ⟨hincr, hhead.trans hu.head, htail.trans hu.tail, hbit.trans hu.bitpos, hskip.trans hu.skip,
    hu.le, fun n hn hlt => by rw [hfifo]; exact hu.held n hn hlt, hu.shown⟩

/-- The words in the FIFO after a clock. -/
theorem level_next {words' : List Word} {pixels' : List Rgb}
    (hpixels : pixels.length ≤ pixels'.length) :
    level m (words ++ words') pixels' ≤ level m words pixels + words'.length := by
  have hdiv : pixels.length / m.wordPixels ≤ pixels'.length / m.wordPixels :=
    Nat.div_le_div_right hpixels
  rw [level, level, List.length_append]
  omega

theorem burstWord_eq (n : Nat) :
    m.dmaBase + BitVec.ofNat 30 (m.fetchedWord (burstWords * (n / burstWords))) +
        BitVec.ofNat 30 (n % burstWords) =
      m.dmaBase + BitVec.ofNat 30 (m.burstWord n) :=
  base_add _ _ _

/-- What the delivered word is. -/
theorem Scanning.delivered_eq (hs : Scanning m mem y words pixels) {w : Word}
    (hd : y.delivered mem i = some w) (hn : words.length < m.countedWords) :
    w = mem (m.dmaBase + BitVec.ofNat 30 (m.burstWord words.length)) := by
  have hburst := hs.burst
  rw [System.delivered] at hd
  cases hb : y.burst with
  | none => simp [hb] at hd
  | some b =>
      obtain ⟨a, k⟩ := b
      rw [hb] at hburst hd
      obtain ⟨-, hk, -, haddr⟩ := hburst
      dsimp only at hd
      split at hd
      · rw [← Option.some.inj hd, haddr hn, ← hk, burstWord_eq]
      · simp at hd

/-- The memory in a clock. -/
theorem Scanning.burst_next (hs : Scanning m mem y words pixels) {pixels' : List Rgb}
    (hpixels : pixels.length ≤ pixels'.length) :
    BurstAt m (words ++ (y.delivered mem i).toList).length
      (level m (words ++ (y.delivered mem i).toList) pixels') (y.burstNext mem i) := by
  have hlevel := @level_next m words pixels (y.delivered mem i).toList pixels' hpixels
  have hburst := hs.burst
  rw [List.length_append]
  generalize hl : level m (words ++ (y.delivered mem i).toList) pixels' = l at *
  rw [System.delivered] at *
  rw [System.burstNext]
  cases hb : y.burst with
  | none =>
      rw [hb] at hburst hlevel
      dsimp only at hlevel ⊢
      rw [Option.toList_none, List.length_nil, Nat.add_zero] at *
      obtain ⟨hlow, haligned⟩ := hburst
      split
      · rename_i hgo
        rw [Bool.and_eq_true] at hgo
        have hmay := mayFetch_level hs hb hgo.1
        refine ⟨by decide, haligned, ?_, fun hn => ?_⟩
        · change l + 32 ≤ 480 + 0
          omega
        · have hwhole := Nat.mul_div_cancel' (Nat.dvd_of_mod_eq_zero haligned)
          rw [(hs.fetching hn).cur, hwhole]
      · exact ⟨by omega, haligned⟩
  | some b =>
      obtain ⟨a, k⟩ := b
      rw [hb] at hburst hlevel
      obtain ⟨hk, hmod, hroom, haddr⟩ := hburst
      dsimp only at hlevel ⊢
      change k < 32 at hk
      change words.length % 32 = k at hmod
      change level m words pixels + 32 ≤ 480 + k at hroom
      cases hd : i.deliver with
      | false =>
          rw [hd, if_neg (by simp), Option.toList_none, List.length_nil] at hlevel
          rw [if_neg (by simp), if_neg (by simp)]
          exact ⟨hk, hmod, by change l + 32 ≤ 480 + k; omega, haddr⟩
      | true =>
          rw [hd, if_pos rfl, Option.toList_some, List.length_singleton] at hlevel
          rw [if_pos rfl, if_pos rfl, Option.toList_some, List.length_singleton]
          split
          · rename_i hlast
            change k + 1 = 32 at hlast
            exact ⟨by omega, by change (words.length + 1) % 32 = 0; omega⟩
          · rename_i hmore
            change ¬k + 1 = 32 at hmore
            have hdiv : (words.length + 1) / burstWords = words.length / burstWords := by
              change (words.length + 1) / 32 = words.length / 32
              omega
            refine ⟨by change k + 1 < 32; omega, by change (words.length + 1) % 32 = k + 1; omega,
              by change l + 32 ≤ 480 + (k + 1); omega, fun hn => ?_⟩
            rw [hdiv]
            exact haddr (by omega)

/-- A clock of a frame. -/
theorem Scanning.step (hs : Scanning m mem y words pixels) (hon : m.bpp ≠ .off)
    (hgap : i.frameGap = false) :
    Scanning m mem (y.step m mem i) (words ++ (y.delivered mem i).toList)
      (pixels ++ (y.pixel m mem i).toList) := by
  have hlevel := hs.level_le
  obtain ⟨s', hs'⟩ : ∃ s', (match y.delivered mem i with
      | some w => y.scan.takeWord m w
      | none => y.scan) = s' := ⟨_, rfl⟩
  have htaken : Unpacked m s' (words ++ (y.delivered mem i).toList) pixels := by
    cases hd : y.delivered mem i with
    | none =>
        rw [hd] at hs'
        rw [← hs', Option.toList_none, List.append_nil]
        exact hs.unpacked
    | some w =>
        rw [hd] at hs'
        rw [← hs', Option.toList_some]
        exact hs.unpacked.takeWord (by omega) w
  have hmoved : (words ++ (y.delivered mem i).toList).length < m.countedWords →
      Fetching m { s' with dmaHlim := m.hlim }
        (words ++ (y.delivered mem i).toList).length := by
    intro hn
    cases hd : y.delivered mem i with
    | none =>
        rw [hd] at hs' hn
        rw [← hs', Option.toList_none, List.append_nil]
        rw [Option.toList_none, List.append_nil] at hn
        exact (hs.fetching hn).congr rfl rfl rfl rfl rfl rfl
    | some w =>
        rw [hd] at hs' hn
        rw [← hs', Option.toList_some, List.length_append, List.length_singleton]
        rw [Option.toList_some, List.length_append, List.length_singleton] at hn
        obtain ⟨hL, hframe⟩ := lt_countedWords.1 hn
        exact ((hs.fetching (by omega)).moveOn hL (lineWords_pos hframe) hframe).congr
          rfl rfl rfl rfl rfl rfl
  have hcontent : ∀ n, n < (words ++ (y.delivered mem i).toList).length → n < m.countedWords →
      wordOf (words ++ (y.delivered mem i).toList) n =
        mem (m.dmaBase + BitVec.ofNat 30 (m.burstWord n)) := by
    intro n hn hframe
    cases hd : y.delivered mem i with
    | none =>
        rw [hd, Option.toList_none, List.append_nil] at hn
        rw [Option.toList_none, List.append_nil]
        exact hs.content n hn hframe
    | some w =>
        rw [hd, Option.toList_some, List.length_append, List.length_singleton] at hn
        rw [Option.toList_some]
        by_cases hlast : n = words.length
        · rw [hlast, wordOf_last]
          exact hs.delivered_eq hd (by omega)
        · rw [wordOf_append (by omega)]
          exact hs.content n (by omega) hframe
  have hcontrol := @control_eq m mem y i hon hgap
  rw [hs'] at hcontrol
  have hpixel := pixel_eq (i := i) hs hon hgap
  cases hp : y.pixel m mem i with
  | none =>
      rw [hp] at hcontrol
      rw [Option.toList_none, List.append_nil]
      refine ⟨?_, ?_, hs.burst_next (Nat.le_refl _), hcontent⟩
      · change Unpacked m { y.scan.control m (y.scanInput mem i) with
          dmaHlim := m.hlim, pixelBitposIncr := m.bitposIncr } _ _
        rw [hcontrol]
        exact htaken.congr rfl rfl rfl rfl rfl rfl
      · intro hn
        change Fetching m { y.scan.control m (y.scanInput mem i) with
          dmaHlim := m.hlim, pixelBitposIncr := m.bitposIncr } _
        rw [hcontrol]
        exact (hmoved hn).congr rfl rfl rfl rfl rfl rfl
  | some color =>
      rw [hp] at hcontrol hpixel
      split at hpixel
      · rename_i hdata
        rw [Option.toList_some]
        have hlength : pixels.length / m.wordPixels <
            (words ++ (y.delivered mem i).toList).length := by
          rw [List.length_append]
          omega
        have hcolor : color = m.colorOf (wordOf (words ++ (y.delivered mem i).toList))
            pixels.length := by
          rw [Option.some.inj hpixel, Mode.colorOf, Mode.colorOf]
          cases hd : y.delivered mem i with
          | none => rw [Option.toList_none, List.append_nil]
          | some w => rw [Option.toList_some, wordOf_append hdata.2]
        refine ⟨?_, ?_, hs.burst_next (by simp), hcontent⟩
        · change Unpacked m { y.scan.control m (y.scanInput mem i) with
            dmaHlim := m.hlim, pixelBitposIncr := m.bitposIncr } _ _
          rw [hcontrol]
          exact (htaken.putPixel hlength hcolor).congr rfl rfl rfl rfl rfl rfl
        · intro hn
          change Fetching m { y.scan.control m (y.scanInput mem i) with
            dmaHlim := m.hlim, pixelBitposIncr := m.bitposIncr } _
          rw [hcontrol]
          exact (hmoved hn).congr rfl rfl rfl rfl rfl rfl
      · simp at hpixel

end Step

end Dvi
end F32c
