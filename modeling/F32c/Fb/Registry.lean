import F32c.Fb.Sprite

/-!
# The sprites as a map

What the calls of the sprite library are for is a map from ids to sprites.  The list keeps
only the low 16 bits of an id, while it is searched with all of them; a sprite gives way to a
new one of its id before there is memory for the new one; and one call takes only the first
sprite off the list.  A run of calls is a run of the map if and only if it meets none of these.
-/

namespace F32c
namespace Fb

section Calls

/-- The calls that change the list of sprites. -/
inductive SprCall where
  | alloc (id bufsize : CInt)
  | grab (id x0 y0 x1 y1 : CInt)
  | load (id : CInt) (image : Decoded) (descale : Nat)
  | free (id : CInt)
  | trans (id color : CInt)
  | flush

/-- A call, the screen at the time, and what `malloc` gives. -/
structure SprStep where
  fb : Screen
  mem : Memory
  block : Option Block
  call : SprCall

/-- The value a call returns, and the list; `spr_alloc` returns zero for a pointer and `-1` for
none. -/
def SprStep.run (s : SprStep) (reg : Registry) : Option (Int × Registry) :=
  match s.call with
  | .alloc id bufsize =>
    match sprAlloc id bufsize s.block reg with
    | (none, reg) => some (-1, reg)
    | (some _, reg) => some (0, reg)
  | .grab id x0 y0 x1 y1 => sprGrab s.fb s.mem id x0 y0 x1 y1 s.block reg
  | .load id image descale => sprLoad s.fb id image descale s.block reg
  | .free id => some (sprFree id reg)
  | .trans id color => some (sprTrans id color reg)
  | .flush => some (0, sprFlush reg)

/-- The id of a call. -/
def SprCall.id : SprCall → CInt
  | .alloc id _ => id
  | .grab id .. => id
  | .load id .. => id
  | .free id => id
  | .trans id _ => id
  | .flush => 0

end Calls

section Map

/-- The sprites by their ids. -/
abbrev SpriteMap := CInt → Option Sprite

/-- A new sprite if there is memory, else `failed` and no change. -/
def SpriteMap.create (M : SpriteMap) (id : CInt) (failed : Int) :
    Option Sprite → Int × SpriteMap
  | none => (failed, M)
  | some sp => (0, Function.update M id (some sp))

/-- What a call is to do with the map. -/
def SprStep.spec (s : SprStep) (M : SpriteMap) : Int × SpriteMap :=
  match s.call with
  | .alloc id bufsize => M.create id (-1) (s.block.map (newSprite id bufsize))
  | .grab id x0 y0 x1 y1 =>
    if grabRefused s.fb id x0 y0 x1 y1 then (-1, M)
    else
      M.create id (-1) (s.block.map fun b =>
        grabSprite s.fb s.mem x0 y0 x1 y1 (newSprite id (grabSize s.fb x0 y0 x1 y1) b))
  | .load id image descale =>
    if s.fb.bpp = 0 then (-1, M)
    else
      match image with
      | .none => (-1, M)
      | .noMemory => (-1, M)
      | .jpeg width height rects ok =>
        if !ok && s.block.isSome then (-1, Function.update M id none)
        else
          M.create id enomem (s.block.map fun b =>
            jpegSprite s.fb width height descale rects
              (newSprite id (jpegSize s.fb width height descale) b))
      | .png width height buffer =>
        M.create id enomem (s.block.map fun b =>
          pngSprite s.fb width height buffer (newSprite id (pngSize s.fb width height) b))
  | .free id => (if (M id).isSome then 0 else -1, Function.update M id none)
  | .trans id color =>
    (if (M id).isSome then 0 else -1,
      Function.update M id ((M id).map fun sp => { sp with transColor := color }))
  | .flush => (0, fun _ => none)

/-- The list stands for the map: an id has one sprite, and the functions that look for one find
the sprite of the map. -/
structure Represents (reg : Registry) (M : SpriteMap) : Prop where
  nodup : (reg.map Sprite.id).Nodup
  lookup : ∀ id : CInt, 0 ≤ id.toInt → sprLookup id reg = M id
  size : ∀ id : CInt, 0 ≤ id.toInt →
    sprSize id reg = (M id).map fun sp => (sp.sizeX.setWidth 32, sp.sizeY.setWidth 32)
  put : ∀ (fb : Screen) (id x0 y0 : CInt) (m : Memory), 0 ≤ id.toInt →
    sprPut fb id x0 y0 reg m =
      match M id with
      | none => (-1, m)
      | some sp => (0, putSprite fb sp x0 y0 m)

theorem Represents.of_lookup {reg : Registry} {M : SpriteMap}
    (hnodup : (reg.map Sprite.id).Nodup)
    (hlookup : ∀ id : CInt, 0 ≤ id.toInt → sprLookup id reg = M id) : Represents reg M := by
  refine ⟨hnodup, hlookup, fun id hid => ?_, fun fb id x0 y0 m hid => ?_⟩
  · rw [sprSize, hlookup id hid]
  · cases hid' : M id with
    | none => simp only [sprPut, hlookup id hid, hid']
    | some sp => simp only [sprPut, hlookup id hid, hid']

theorem Represents.initial : Represents [] fun _ => none :=
  .of_lookup List.nodup_nil fun _ _ => rfl

end Map

section Lookup

variable {reg : Registry} {M : SpriteMap} {id id' : CInt} {sp : Sprite}

theorem hasId_iff : sp.hasId id = true ↔ sp.id.setWidth 32 = id := by
  rw [Sprite.hasId, beq_iff_eq]

theorem lookup_cons :
    sprLookup id (sp :: reg) = if sp.id.setWidth 32 = id then some sp else sprLookup id reg := by
  rw [sprLookup, List.find?_cons, ← sprLookup]
  by_cases h : sp.id.setWidth 32 = id
  · rw [hasId_iff.2 h, if_pos h]
  · rw [Bool.eq_false_iff.2 (mt hasId_iff.1 h), if_neg h]

theorem lookup_eq_none : sprLookup id reg = none ↔ ∀ sp ∈ reg, sp.id.setWidth 32 ≠ id := by
  rw [sprLookup, List.find?_eq_none]
  simp only [hasId_iff, ne_eq]

/-- An id of more than 16 bits is never found. -/
theorem lookup_large (hid : 2 ^ 16 ≤ id.toNat) : sprLookup id reg = none := by
  rw [lookup_eq_none]
  rintro sp - rfl
  have hlt := sp.id.isLt
  rw [BitVec.toNat_setWidth] at hid
  omega

theorem setWidth_inj {a b : BitVec 16} (h : a.setWidth 32 = b.setWidth 32) : a = b := by
  have hval := congrArg BitVec.toNat h
  have ha := a.isLt
  have hb := b.isLt
  rw [BitVec.toNat_setWidth, BitVec.toNat_setWidth] at hval
  exact BitVec.eq_of_toNat_eq (by omega)

/-- The low bits of a small id. -/
theorem setWidth_small (hid : id.toNat < 2 ^ 16) : (id.setWidth 16).setWidth 32 = id := by
  apply BitVec.eq_of_toNat_eq
  rw [BitVec.toNat_setWidth, BitVec.toNat_setWidth]
  omega

/-- The list without the first sprite of an id. -/
theorem lookup_eraseP (hnodup : (reg.map Sprite.id).Nodup) :
    sprLookup id' (reg.eraseP (Sprite.hasId id)) =
      if id' = id then none else sprLookup id' reg := by
  induction reg with
  | nil => simp [sprLookup]
  | cons sp rest ih =>
      rw [List.map_cons, List.nodup_cons] at hnodup
      by_cases h : sp.id.setWidth 32 = id
      · rw [List.eraseP_cons_of_pos (hasId_iff.2 h), lookup_cons, h]
        by_cases heq : id' = id
        · rw [if_pos heq, heq, lookup_eq_none]
          intro other hother hsame
          have hid := setWidth_inj (hsame.trans h.symm)
          exact hnodup.1 (hid ▸ List.mem_map_of_mem hother)
        · rw [if_neg heq, if_neg (Ne.symm heq)]
      · rw [List.eraseP_cons_of_neg (mt hasId_iff.1 h), lookup_cons, lookup_cons, ih hnodup.2]
        by_cases heq : id' = id
        · rw [if_neg (by rw [heq]; exact h), if_pos heq, if_pos heq]
        · rw [if_neg heq, if_neg heq]

theorem lookup_sprFree (hnodup : (reg.map Sprite.id).Nodup) :
    sprLookup id' (sprFree id reg).2 = if id' = id then none else sprLookup id' reg := by
  rw [sprFree]
  cases h : sprLookup id reg with
  | none =>
      by_cases heq : id' = id
      · rw [if_pos heq, heq]
        exact h
      · rw [if_neg heq]
  | some sp => exact lookup_eraseP hnodup

theorem nodup_sprFree (hnodup : (reg.map Sprite.id).Nodup) :
    ((sprFree id reg).2.map Sprite.id).Nodup := by
  rw [sprFree]
  cases sprLookup id reg with
  | none => exact hnodup
  | some sp => exact hnodup.sublist (List.eraseP_sublist.map _)

theorem sprFree_of_none (h : sprLookup id reg = none) : sprFree id reg = (-1, reg) := by
  rw [sprFree, h]

/-- A change of the sprite with an id. -/
theorem lookup_updateFirst {f : Sprite → Sprite} (hf : ∀ sp, (f sp).id = sp.id) :
    sprLookup id' (updateFirst id f reg) =
      if id' = id then (sprLookup id reg).map f else sprLookup id' reg := by
  induction reg with
  | nil => simp [sprLookup, updateFirst]
  | cons sp rest ih =>
      rw [updateFirst]
      by_cases h : sp.id.setWidth 32 = id
      · rw [if_pos (hasId_iff.2 h), lookup_cons, lookup_cons, lookup_cons, hf, if_pos h]
        by_cases heq : id' = id
        · rw [if_pos (h.trans heq.symm), if_pos heq]
          rfl
        · rw [if_neg (by rw [h]; exact Ne.symm heq), if_neg heq, if_neg (by rw [h]; exact Ne.symm heq)]
      · rw [if_neg (mt hasId_iff.1 h), lookup_cons, lookup_cons, lookup_cons, ih, if_neg h]
        by_cases heq : id' = id
        · rw [if_neg (by rw [heq]; exact h), if_pos heq, if_pos heq]
        · rw [if_neg heq, if_neg heq]

theorem map_id_updateFirst {f : Sprite → Sprite} (hf : ∀ sp, (f sp).id = sp.id) :
    (updateFirst id f reg).map Sprite.id = reg.map Sprite.id := by
  induction reg with
  | nil => rfl
  | cons sp rest ih =>
      rw [updateFirst]
      split
      · rw [List.map_cons, List.map_cons, hf]
      · rw [List.map_cons, List.map_cons, ih]

end Lookup

section Operations

variable {reg : Registry} {M : SpriteMap} {id : CInt} {sp : Sprite}

theorem Represents.remove (h : Represents reg M) (id : CInt) :
    Represents (sprFree id reg).2 (Function.update M id none) := by
  refine .of_lookup (nodup_sprFree h.nodup) fun id' hid' => ?_
  rw [lookup_sprFree h.nodup, Function.update_apply, h.lookup id' hid']

theorem sprFree_fst (h : Represents reg M) (hid : 0 ≤ id.toInt) :
    (sprFree id reg).1 = if (M id).isSome then 0 else -1 := by
  rw [sprFree, h.lookup id hid]
  cases M id <;> rfl

/-- A new sprite takes the place of the one with its id. -/
theorem Represents.create (h : Represents reg M) (hid : id.toNat < 2 ^ 16)
    (hsp : sp.id = id.setWidth 16) :
    Represents (sp :: (sprFree id reg).2) (Function.update M id (some sp)) := by
  have hstored : sp.id.setWidth 32 = id := by rw [hsp, setWidth_small hid]
  have hnodup := @nodup_sprFree reg id h.nodup
  have hgone : sprLookup id (sprFree id reg).2 = none := by
    rw [lookup_sprFree h.nodup, if_pos rfl]
  refine .of_lookup ?_ fun id' hid' => ?_
  · rw [List.map_cons, List.nodup_cons]
    refine ⟨fun hmem => ?_, hnodup⟩
    obtain ⟨other, hother, hsame⟩ := List.mem_map.1 hmem
    exact lookup_eq_none.1 hgone other hother (by rw [hsame, hstored])
  · rw [lookup_cons, hstored, lookup_sprFree h.nodup, Function.update_apply, h.lookup id' hid']
    by_cases heq : id' = id
    · rw [if_pos heq.symm, if_pos heq]
    · rw [if_neg (Ne.symm heq), if_neg heq, if_neg heq]

theorem Represents.recolour (h : Represents reg M) (hid : 0 ≤ id.toInt) (color : CInt) :
    (sprTrans id color reg).1 = (if (M id).isSome then 0 else -1) ∧
      Represents (sprTrans id color reg).2
        (Function.update M id ((M id).map fun sp => { sp with transColor := color })) := by
  have hlookup := h.lookup id hid
  cases hM : M id with
  | none =>
      rw [hM] at hlookup
      have htrans : sprTrans id color reg = (-1, reg) := by rw [sprTrans, hlookup]
      rw [htrans, Option.map_none, ← hM, Function.update_eq_self]
      exact ⟨by rw [hM]; rfl, h⟩
  | some sp =>
      rw [hM] at hlookup
      have htrans : sprTrans id color reg =
          (0, updateFirst id (fun sp => { sp with transColor := color }) reg) := by
        rw [sprTrans, hlookup]
      rw [htrans]
      refine ⟨rfl, .of_lookup ?_ fun id' hid' => ?_⟩
      · rw [map_id_updateFirst (f := fun sp => { sp with transColor := color }) fun _ => rfl]
        exact h.nodup
      · rw [lookup_updateFirst (f := fun sp => { sp with transColor := color }) fun _ => rfl,
          Function.update_apply, hlookup, h.lookup id' hid']

/-- A map without sprites has no list but the empty one. -/
theorem Represents.eq_nil (h : Represents reg fun _ => none) : reg = [] := by
  cases reg with
  | nil => rfl
  | cons sp rest =>
      have hlt := sp.id.isLt
      have hpos : 0 ≤ (sp.id.setWidth 32).toInt := by
        rw [BitVec.toInt_eq_toNat_of_lt (by rw [BitVec.toNat_setWidth]; omega)]
        omega
      have hfound := h.lookup (sp.id.setWidth 32) hpos
      rw [lookup_cons, if_pos rfl] at hfound
      simp at hfound

/-- Flushing is right for one sprite at most. -/
theorem represents_flush_iff (reg : Registry) :
    Represents (sprFlush reg) (fun _ => none) ↔ reg.length ≤ 1 := by
  constructor
  · intro h
    have hnil := h.eq_nil
    cases reg with
    | nil => exact Nat.zero_le _
    | cons sp rest =>
        change rest = [] at hnil
        rw [hnil, List.length_singleton]
  · intro h
    cases reg with
    | nil => exact .initial
    | cons sp rest =>
        have hnil : rest = [] := List.eq_nil_of_length_eq_zero (by
          rw [List.length_cons] at h
          omega)
        rw [hnil]
        exact .initial

/-- A sprite that is taken off for a new one is lost when there is no memory for it. -/
theorem represents_lost_iff (h : Represents reg M) (hid : 0 ≤ id.toInt) :
    Represents (sprFree id reg).2 M ↔ sprLookup id reg = none := by
  constructor
  · intro h'
    have hgone := h'.lookup id hid
    rw [lookup_sprFree h.nodup, if_pos rfl] at hgone
    rw [h.lookup id hid, ← hgone]
  · intro hnone
    rw [sprFree_of_none hnone]
    exact h

/-- A new sprite is found under its id if that fits 16 bits. -/
theorem represents_create_iff (h : Represents reg M) (hid : 0 ≤ id.toInt)
    (hsp : sp.id = id.setWidth 16) :
    Represents (sp :: (sprFree id reg).2) (Function.update M id (some sp)) ↔
      id.toNat < 2 ^ 16 := by
  constructor
  · intro h'
    by_contra hlarge
    have hfound := h'.lookup id hid
    rw [lookup_large (by omega), Function.update_self] at hfound
    simp at hfound
  · intro hsmall
    exact h.create hsmall hsp

/-- A new sprite is taken off again if it is found. -/
theorem represents_undo_iff (h : Represents reg M) (hid : 0 ≤ id.toInt)
    (hsp : sp.id = id.setWidth 16) :
    Represents (sprFree id (sp :: (sprFree id reg).2)).2 (Function.update M id none) ↔
      id.toNat < 2 ^ 16 := by
  constructor
  · intro h'
    by_contra hlarge
    have hnone : ∀ reg, sprFree id reg = (-1, reg) :=
      fun reg => sprFree_of_none (lookup_large (by omega))
    rw [hnone, hnone] at h'
    have hkept : Function.update M id none = M := by
      rw [← @lookup_large reg id (by omega), h.lookup id hid,
        Function.update_eq_self]
    rw [hkept] at h'
    -- the sprite is in the list under another id
    have hlt := sp.id.isLt
    have hpos : 0 ≤ (sp.id.setWidth 32).toInt := by
      rw [BitVec.toInt_eq_toNat_of_lt (by rw [BitVec.toNat_setWidth]; omega)]
      omega
    have hfound := h'.lookup _ hpos
    rw [lookup_cons, if_pos rfl, ← h.lookup _ hpos] at hfound
    have hmem := List.mem_of_find?_eq_some hfound.symm
    have hnodup := h'.nodup
    rw [List.map_cons, List.nodup_cons] at hnodup
    exact hnodup.1 (List.mem_map_of_mem hmem)
  · intro hsmall
    have hcreate := (h.create hsmall hsp).remove id
    rwa [Function.update_idem] at hcreate

end Operations

section Runs

/-- An image can be loaded: a new sprite has an id of 16 bits, and without memory there is no
sprite that was taken off, and no pointer that is used. -/
def LoadCareful (block : Option Block) (id : CInt) (reg : Registry) : Decoded → Prop
  | .none => True
  | .noMemory => False
  | .jpeg .. => if block.isSome then id.toNat < 2 ^ 16 else sprLookup id reg = none
  | .png .. => block.isSome = true ∧ id.toNat < 2 ^ 16

/-- When a call does what it is to do; one sprite at most can be flushed. -/
def SprStep.Careful (s : SprStep) (reg : Registry) : Prop :=
  match s.call with
  | .alloc id _ => if s.block.isSome then id.toNat < 2 ^ 16 else sprLookup id reg = none
  | .grab id x0 y0 x1 y1 =>
    grabRefused s.fb id x0 y0 x1 y1 = true ∨ s.block.isSome = true ∧ id.toNat < 2 ^ 16
  | .load id image _ => s.fb.bpp = 0 ∨ LoadCareful s.block id reg image
  | .free _ => True
  | .trans .. => True
  | .flush => reg.length ≤ 1

/-- What a call is to do. -/
def SprStep.Follows (s : SprStep) (reg : Registry) (M : SpriteMap) : Prop :=
  ∃ reg', s.run reg = some ((s.spec M).1, reg') ∧ Represents reg' (s.spec M).2

variable {reg : Registry} {M : SpriteMap} {s : SprStep}

theorem jpegSprite_id (fb : Screen) (width height descale : Nat) (rects : List JpegRect)
    (sp : Sprite) : (jpegSprite fb width height descale rects sp).id = sp.id := by
  rw [jpegSprite]
  induction rects using List.reverseRecOn with
  | nil => rfl
  | append_singleton rects rect ih =>
      rw [List.foldl_append, List.foldl_cons, List.foldl_nil]
      exact ih

/-- A call that only makes a sprite. -/
theorem follows_create (h : Represents reg M) {id : CInt} (hid : 0 ≤ id.toInt) {sp : Sprite}
    (hsp : sp.id = id.setWidth 16)
    (hrun : s.run reg = some (0, sp :: (sprFree id reg).2))
    (hspec : s.spec M = (0, Function.update M id (some sp))) :
    s.Follows reg M ↔ id.toNat < 2 ^ 16 := by
  rw [← represents_create_iff h hid hsp, SprStep.Follows, hrun, hspec]
  constructor
  · rintro ⟨reg', hreg, hrep⟩
    rwa [← (Prod.mk.inj (Option.some.inj hreg)).2] at hrep
  · intro hrep
    exact ⟨_, rfl, hrep⟩

/-- A call without memory for a sprite. -/
theorem follows_lost (h : Represents reg M) {id : CInt} (hid : 0 ≤ id.toInt) {code : Int}
    (hrun : s.run reg = some (code, (sprFree id reg).2)) (hspec : s.spec M = (code, M)) :
    s.Follows reg M ↔ sprLookup id reg = none := by
  rw [← represents_lost_iff h hid, SprStep.Follows, hrun, hspec]
  constructor
  · rintro ⟨reg', hreg, hrep⟩
    rwa [← (Prod.mk.inj (Option.some.inj hreg)).2] at hrep
  · intro hrep
    exact ⟨_, rfl, hrep⟩

/-- A call that changes nothing. -/
theorem follows_same (h : Represents reg M) {code : Int} (hrun : s.run reg = some (code, reg))
    (hspec : s.spec M = (code, M)) : s.Follows reg M :=
  ⟨reg, by rw [hrun, hspec], by rw [hspec]; exact h⟩

/-- A call that uses a null pointer. -/
theorem not_follows (hrun : s.run reg = none) : ¬s.Follows reg M := by
  rintro ⟨reg', hreg, -⟩
  rw [hrun] at hreg
  simp at hreg

section Cases

variable {fb : Screen} {mem : Memory} {block : Option Block} {id : CInt}

theorem grab_follows_iff (h : Represents reg M) (hid : 0 ≤ id.toInt) (x0 y0 x1 y1 : CInt) :
    SprStep.Follows ⟨fb, mem, block, .grab id x0 y0 x1 y1⟩ reg M ↔
      grabRefused fb id x0 y0 x1 y1 = true ∨ block.isSome = true ∧ id.toNat < 2 ^ 16 := by
  by_cases hrefused : grabRefused fb id x0 y0 x1 y1 = true
  · have hsame := @follows_same reg M ⟨fb, mem, block, .grab id x0 y0 x1 y1⟩ h (-1)
      (by simp only [SprStep.run, sprGrab, if_pos hrefused])
      (by simp only [SprStep.spec, if_pos hrefused])
    exact ⟨fun _ => .inl hrefused, fun _ => hsame⟩
  · cases block with
    | none =>
        have hnull := @not_follows reg M ⟨fb, mem, none, .grab id x0 y0 x1 y1⟩
          (by simp only [SprStep.run, sprGrab, if_neg hrefused, sprAlloc])
        exact ⟨fun hf => absurd hf hnull, fun hc => by simp [hrefused] at hc⟩
    | some b =>
        have hiff := @follows_create reg M ⟨fb, mem, some b, .grab id x0 y0 x1 y1⟩ h id hid
          (grabSprite fb mem x0 y0 x1 y1 (newSprite id (grabSize fb x0 y0 x1 y1) b)) rfl
          (by simp only [SprStep.run, sprGrab, if_neg hrefused, sprAlloc, List.modifyHead_cons])
          (by simp only [SprStep.spec, if_neg hrefused, Option.map_some, SpriteMap.create])
        rw [hiff]
        simp [hrefused]

theorem jpeg_follows_iff (h : Represents reg M) (hid : 0 ≤ id.toInt) (hon : fb.bpp ≠ 0)
    (width height descale : Nat) (rects : List JpegRect) (ok : Bool) :
    SprStep.Follows ⟨fb, mem, block, .load id (.jpeg width height rects ok) descale⟩ reg M ↔
      if block.isSome then id.toNat < 2 ^ 16 else sprLookup id reg = none := by
  cases block with
  | none =>
      exact @follows_lost reg M ⟨fb, mem, none, .load id (.jpeg width height rects ok) descale⟩
        h id hid enomem (by simp only [SprStep.run, sprLoad, if_neg hon, sprAlloc])
        (by simp [SprStep.spec, hon, SpriteMap.create])
  | some b =>
      have hstored := jpegSprite_id fb width height descale rects
        (newSprite id (jpegSize fb width height descale) b)
      cases ok with
      | true =>
          exact @follows_create reg M
            ⟨fb, mem, some b, .load id (.jpeg width height rects true) descale⟩ h id hid _ hstored
            (by simp [SprStep.run, sprLoad, hon, sprAlloc])
            (by simp [SprStep.spec, hon, SpriteMap.create])
      | false =>
          -- the new sprite is freed again
          rw [Option.isSome_some, if_pos rfl, ← represents_undo_iff h hid hstored, SprStep.Follows]
          simp [SprStep.run, sprLoad, hon, sprAlloc, SprStep.spec]

theorem png_follows_iff (h : Represents reg M) (hid : 0 ≤ id.toInt) (hon : fb.bpp ≠ 0)
    (width height descale : Nat) (buffer : Nat → Byte) :
    SprStep.Follows ⟨fb, mem, block, .load id (.png width height buffer) descale⟩ reg M ↔
      block.isSome = true ∧ id.toNat < 2 ^ 16 := by
  cases block with
  | none =>
      have hnull := @not_follows reg M
        ⟨fb, mem, none, .load id (.png width height buffer) descale⟩
        (by simp only [SprStep.run, sprLoad, if_neg hon, sprAlloc])
      exact ⟨fun hf => absurd hf hnull, fun hc => by simp at hc⟩
  | some b =>
      have hiff := @follows_create reg M
        ⟨fb, mem, some b, .load id (.png width height buffer) descale⟩ h id hid
        (pngSprite fb width height buffer (newSprite id (pngSize fb width height) b)) rfl
        (by simp [SprStep.run, sprLoad, hon, sprAlloc])
        (by simp [SprStep.spec, hon, SpriteMap.create])
      rw [hiff]
      simp

theorem load_follows_iff (h : Represents reg M) (hid : 0 ≤ id.toInt) (image : Decoded)
    (descale : Nat) :
    SprStep.Follows ⟨fb, mem, block, .load id image descale⟩ reg M ↔
      fb.bpp = 0 ∨ LoadCareful block id reg image := by
  by_cases hoff : fb.bpp = 0
  · have hsame := @follows_same reg M ⟨fb, mem, block, .load id image descale⟩ h (-1)
      (by simp only [SprStep.run, sprLoad, if_pos hoff])
      (by simp only [SprStep.spec, if_pos hoff])
    exact ⟨fun _ => .inl hoff, fun _ => hsame⟩
  · rw [or_iff_right hoff]
    cases image with
    | none =>
        have hsame := @follows_same reg M ⟨fb, mem, block, .load id .none descale⟩ h (-1)
          (by simp only [SprStep.run, sprLoad, if_neg hoff])
          (by simp only [SprStep.spec, if_neg hoff])
        exact ⟨fun _ => trivial, fun _ => hsame⟩
    | noMemory =>
        have hnull := @not_follows reg M ⟨fb, mem, block, .load id .noMemory descale⟩
          (by simp only [SprStep.run, sprLoad, if_neg hoff])
        exact ⟨fun hf => absurd hf hnull, fun hc => hc.elim⟩
    | jpeg width height rects ok => exact jpeg_follows_iff h hid hoff width height descale rects ok
    | png width height buffer => exact png_follows_iff h hid hoff width height descale buffer

end Cases

/-- One call does what it is to do exactly when it is a careful one. -/
theorem follows_iff (h : Represents reg M) (hid : 0 ≤ s.call.id.toInt) :
    s.Follows reg M ↔ s.Careful reg := by
  obtain ⟨fb, mem, block, call⟩ := s
  cases call with
  | alloc id bufsize =>
      cases block with
      | none => exact follows_lost h hid rfl rfl
      | some b => exact @follows_create reg M _ h id hid (newSprite id bufsize b) rfl rfl rfl
  | grab id x0 y0 x1 y1 => exact grab_follows_iff h hid x0 y0 x1 y1
  | load id image descale => exact load_follows_iff h hid image descale
  | free id =>
      change 0 ≤ id.toInt at hid
      refine ⟨fun _ => trivial, fun _ => ⟨(sprFree id reg).2, ?_, h.remove id⟩⟩
      change some (sprFree id reg) = some (if (M id).isSome then 0 else -1, (sprFree id reg).2)
      rw [← sprFree_fst h hid]
  | trans id color =>
      change 0 ≤ id.toInt at hid
      obtain ⟨hcode, hrep⟩ := h.recolour hid color
      refine ⟨fun _ => trivial, fun _ => ⟨(sprTrans id color reg).2, ?_, hrep⟩⟩
      change some (sprTrans id color reg) =
        some (if (M id).isSome then 0 else -1, (sprTrans id color reg).2)
      rw [← hcode]
  | flush =>
      change (∃ reg', some ((0 : Int), sprFlush reg) = some (0, reg') ∧
        Represents reg' fun _ => none) ↔ reg.length ≤ 1
      rw [← represents_flush_iff]
      simp

/-- Every call of a run does what it is to do. -/
def FollowsAll : List SprStep → Registry → SpriteMap → Prop
  | [], _, _ => True
  | s :: rest, reg, M =>
    s.Follows reg M ∧ ∀ ret reg', s.run reg = some (ret, reg') → FollowsAll rest reg' (s.spec M).2

/-- Every call of a run is a careful one in the state it is made in. -/
def CarefulAll : List SprStep → Registry → Prop
  | [], _ => True
  | s :: rest, reg =>
    s.Careful reg ∧ ∀ ret reg', s.run reg = some (ret, reg') → CarefulAll rest reg'

theorem followsAll_iff (steps : List SprStep) (hids : ∀ s ∈ steps, 0 ≤ s.call.id.toInt)
    (h : Represents reg M) : FollowsAll steps reg M ↔ CarefulAll steps reg := by
  induction steps generalizing reg M with
  | nil => exact Iff.rfl
  | cons s rest ih =>
      have hstep := follows_iff h (hids s List.mem_cons_self)
      rw [FollowsAll, CarefulAll, hstep]
      refine and_congr_right fun hcareful => forall_congr' fun ret => forall_congr' fun reg' =>
        imp_congr_right fun hrun => ?_
      obtain ⟨reg'', hrun', h'⟩ := hstep.2 hcareful
      rw [hrun] at hrun'
      rw [← (Prod.mk.inj (Option.some.inj hrun')).2] at h'
      exact ih (fun s hs => hids s (List.mem_cons_of_mem _ hs)) h'

/-- A call with memory for a sprite. -/
def withMemory (call : SprCall) : SprStep := ⟨.initial, fun _ => 0, some ⟨fun _ => 0, 0, 0⟩, call⟩

end Runs

end Fb
end F32c
