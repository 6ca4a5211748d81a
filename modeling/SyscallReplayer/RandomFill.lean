import SyscallReplayer.WhileLoops
import SyscallReplayer.WriteBuffers

/-!
# Filling a buffer with random words

`random_fill_buffer` copies the front of one word and then whole words. Its loop
starts behind the front and stops that much before the end, so that the last
word may begin before the bound and end behind it.
-/

namespace SyscallReplayer.RandomFill

open ByteBuffers WhileLoops WriteBuffers

/-- The variables of `random_fill_buffer`, with the copies made so far. -/
structure Fill where
  i : BitVec 64
  drawn : Nat
  buffer : Contents
  copies : List Range

/-- The copy in front of the loop. -/
def fillFront (source : RandomSource) (buffer : Contents) (nbytes : BitVec 64) : Option Fill := do
  let remaining := nbytes % 8
  let buffer ← memcpy buffer 0 (wordBytes (source.rand 0)) remaining.toNat
  return { i := remaining, drawn := 1, buffer, copies := [⟨0, remaining.toNat⟩] }

def fillWords (source : RandomSource) (bytes : BitVec 64) : Loop Fill where
  guard s := s.i < bytes
  body s := do
    let buffer ← memcpy s.buffer s.i.toNat (wordBytes (source.rand s.drawn)) 8
    return {
      i := s.i + 8
      drawn := s.drawn + 1
      buffer
      copies := s.copies ++ [⟨s.i.toNat, 8⟩] }

/-- The first `i` bytes are written, by copies that stand side by side, and the
others are as they were. -/
structure Filled (buffer : Contents) (s : Fill) : Prop where
  abut : Abut 0 s.copies s.i.toNat
  front : ∃ done : List UInt8, done.length = s.i.toNat ∧
    s.buffer = done.map some ++ buffer.drop s.i.toNat

/-- A number of whole words is left. -/
def WordsLeft (nbytes : BitVec 64) (s : Fill) : Prop :=
  s.i.toNat ≤ nbytes.toNat ∧ s.i.toNat % 8 = nbytes.toNat % 8

section

variable {source : RandomSource} {buffer : Contents} {nbytes : BitVec 64} {s t : Fill}

theorem Filled.copy (h : Filled buffer s) {data : List UInt8} {count : Nat} {i : BitVec 64}
    (hroom : s.i.toNat + count ≤ buffer.length) (hdata : count ≤ data.length)
    (hi : i.toNat = s.i.toNat + count) (drawn : Nat) :
    ∃ contents, memcpy s.buffer s.i.toNat data count = some contents ∧
      Filled buffer ⟨i, drawn, contents, s.copies ++ [⟨s.i.toNat, count⟩]⟩ := by
  obtain ⟨done, hlength, hbuffer⟩ := h.front
  have hrest : count ≤ (buffer.drop s.i.toNat).length := by
    rw [List.length_drop]
    omega
  have hcopy := @memcpy_append (buffer.drop s.i.toNat) data done count hrest hdata
  rw [← hbuffer, hlength, List.drop_drop, ← hi] at hcopy
  refine ⟨_, hcopy, hi ▸ h.abut.concat count, done ++ data.take count, ?_, rfl⟩
  rw [List.length_append, List.length_take_of_le hdata, hlength, hi]

theorem toNat_remaining (nbytes : BitVec 64) : (nbytes % 8).toNat = nbytes.toNat % 8 :=
  BitVec.toNat_umod

theorem toNat_bytes (nbytes : BitVec 64) :
    (nbytes - nbytes % 8).toNat = nbytes.toNat - nbytes.toNat % 8 := by
  rw [BitVec.toNat_sub_of_le, toNat_remaining]
  rw [BitVec.le_def, toNat_remaining]
  exact Nat.mod_le _ _

theorem fillFront_eq_some (source : RandomSource) (hroom : nbytes.toNat ≤ buffer.length) :
    ∃ s, fillFront source buffer nbytes = some s ∧ Filled buffer s ∧ WordsLeft nbytes s := by
  have hstart : Filled buffer ⟨0, 0, buffer, []⟩ := ⟨rfl, [], rfl, rfl⟩
  have hremaining := toNat_remaining nbytes
  have hword : (nbytes % 8).toNat ≤ (wordBytes (source.rand 0)).length := by
    rw [wordBytes_length, hremaining]
    omega
  have hle : (nbytes % 8).toNat ≤ nbytes.toNat := hremaining ▸ Nat.mod_le _ _
  obtain ⟨contents, hcopy, hfilled⟩ := hstart.copy
    (show 0 + (nbytes % 8).toNat ≤ buffer.length by omega) hword (Nat.zero_add _).symm 1
  refine ⟨_, ?_, hfilled, hle, ?_⟩
  · exact Option.bind_eq_some_iff.mpr ⟨contents, hcopy, rfl⟩
  · rw [hremaining, Nat.mod_mod]

theorem guard_iff (h : WordsLeft nbytes s) :
    (fillWords source (nbytes - nbytes % 8)).guard s = true ↔ s.i.toNat + 8 ≤ nbytes.toNat := by
  have hguard : (fillWords source (nbytes - nbytes % 8)).guard s = true ↔
      s.i < nbytes - nbytes % 8 := decide_eq_true_iff
  rw [hguard, BitVec.lt_def, toNat_bytes]
  obtain ⟨hle, hwords⟩ := h
  omega

theorem toNat_add_eight {i : BitVec 64} (h : i.toNat + 8 < 2 ^ 64) :
    (i + 8).toNat = i.toNat + 8 := by
  rw [BitVec.toNat_add]
  exact Nat.mod_eq_of_lt h

theorem fillWords_turn (bytes : BitVec 64) (hroom : nbytes.toNat ≤ buffer.length)
    (hfilled : Filled buffer s) (hwords : WordsLeft nbytes s)
    (hfits : s.i.toNat + 8 ≤ nbytes.toNat) :
    ∃ s', (fillWords source bytes).body s = some s' ∧
      (Filled buffer s' ∧ WordsLeft nbytes s') ∧
      nbytes.toNat - s'.i.toNat < nbytes.toNat - s.i.toNat := by
  have hnext := toNat_add_eight (hfits.trans_lt nbytes.isLt)
  obtain ⟨contents, hcopy, hfilled'⟩ := hfilled.copy (hfits.trans hroom)
    (wordBytes_length (source.rand s.drawn)).ge hnext (s.drawn + 1)
  refine ⟨_, ?_, ⟨hfilled', ?_⟩, ?_⟩
  · exact Option.bind_eq_some_iff.mpr ⟨contents, hcopy, rfl⟩
  · exact ⟨hnext ▸ hfits, by rw [hnext, Nat.add_mod_right]; exact hwords.2⟩
  · dsimp only
    omega

theorem fillWords_ends (hroom : nbytes.toNat ≤ buffer.length) (hfilled : Filled buffer s)
    (hwords : WordsLeft nbytes s) :
    ∃ t, (fillWords source (nbytes - nbytes % 8)).Ends s t ∧ Filled buffer t ∧
      t.i = nbytes := by
  obtain ⟨t, hends, ⟨ht, hwords'⟩, hguard⟩ := Loop.exists_ends
    (fun s => nbytes.toNat - s.i.toNat)
    (fun s hs hguard => fillWords_turn _ hroom hs.1 hs.2 ((guard_iff hs.2).mp hguard))
    ⟨hfilled, hwords⟩
  refine ⟨t, hends, ht, BitVec.eq_of_toNat_eq ?_⟩
  have hstop := mt (guard_iff hwords').mpr (Bool.eq_false_iff.mp hguard)
  obtain ⟨hle, hmod⟩ := hwords'
  omega

/-- Where the counter does not wrap around, the loop is the one on numbers. -/
theorem randomFillLoop_of_ends {bytes : BitVec 64} (hbytes : 8 ∣ bytes.toNat)
    (h : (fillWords source bytes).Ends s t) :
    randomFillLoop source s.drawn s.buffer s.i.toNat bytes.toNat = some t.buffer := by
  induction h with
  | @leave s hguard =>
      have hstop : ¬s.i < bytes := of_decide_eq_false hguard
      rw [randomFillLoop, if_neg (mt BitVec.lt_def.mpr hstop)]
  | @turn s s' t hguard hbody _ ih =>
      have hlt : s.i.toNat < bytes.toNat := BitVec.lt_def.mp (of_decide_eq_true hguard)
      obtain ⟨contents, hcopy, heq⟩ := Option.bind_eq_some_iff.mp hbody
      obtain rfl := Option.some.inj heq
      have hnext : (s.i + 8).toNat = s.i.toNat + 8 := by
        have hword := bytes.isLt
        exact toNat_add_eight (by omega)
      rw [randomFillLoop, if_pos hlt, hcopy, ← ih, hnext]
      rfl

theorem randomFillBuffer_of_ends (hfront : fillFront source buffer nbytes = some s)
    (hends : (fillWords source (nbytes - nbytes % 8)).Ends s t) :
    randomFillBuffer source buffer nbytes.toNat = some t.buffer := by
  obtain ⟨contents, hcopy, heq⟩ := Option.bind_eq_some_iff.mp hfront
  obtain rfl := Option.some.inj heq
  have hwhole : 8 ∣ (nbytes - nbytes % 8).toNat := by
    rw [toNat_bytes]
    exact Nat.dvd_sub_mod _
  have hloop := randomFillLoop_of_ends hwhole hends
  rw [toNat_bytes] at hloop
  rw [toNat_remaining] at hcopy hloop
  rw [randomFillBuffer, hcopy]
  exact hloop

/-- The copies write each of the first `nbytes` bytes once and no other byte. -/
structure FillsExactly (buffer : Contents) (nbytes : Nat) (s : Fill) : Prop where
  disjoint : s.copies.Pairwise fun a b => Disjoint a.indices b.indices
  covers : {x | ∃ a ∈ s.copies, x ∈ a.indices} = Set.Ico 0 nbytes
  initialised : ∀ x < nbytes, ∃ byte, s.buffer[x]? = some (some byte)
  untouched : ∀ x, nbytes ≤ x → s.buffer[x]? = buffer[x]?

theorem Filled.fillsExactly (h : Filled buffer s) : FillsExactly buffer s.i.toNat s := by
  obtain ⟨done, hlength, hbuffer⟩ := h.front
  have hdone : (done.map some).length = s.i.toNat := by rw [List.length_map, hlength]
  refine ⟨h.abut.disjoint, ?_, fun x hx => ?_, fun x hx => ?_⟩
  · ext x
    exact h.abut.exists_mem_iff x
  · have hlt : x < done.length := hlength ▸ hx
    refine ⟨done[x], ?_⟩
    rw [hbuffer, List.getElem?_append_left (hdone ▸ hx), List.getElem?_map,
      List.getElem?_eq_getElem hlt, Option.map_some]
  · rw [hbuffer, List.getElem?_append_right (hdone.le.trans hx), hdone, List.getElem?_drop,
      Nat.add_sub_cancel' hx]

/-- In a buffer with room for them `random_fill_buffer` comes to an end and fills
exactly the first `nbytes` bytes. -/
theorem randomFillBuffer_fillsExactly (source : RandomSource) (buffer : Contents)
    (nbytes : BitVec 64) (hroom : nbytes.toNat ≤ buffer.length) :
    ∃ front filled, fillFront source buffer nbytes = some front ∧
      (∀ s, (fillWords source (nbytes - nbytes % 8)).Ends front s ↔ s = filled) ∧
      FillsExactly buffer nbytes.toNat filled ∧
      randomFillBuffer source buffer nbytes.toNat = some filled.buffer := by
  obtain ⟨front, hfront, hfilled, hwords⟩ := fillFront_eq_some source hroom
  obtain ⟨filled, hends, hall, hi⟩ := fillWords_ends hroom hfilled hwords
  exact ⟨front, filled, hfront, fun s => ⟨fun h => h.unique hends, fun h => h ▸ hends⟩,
    hi ▸ hall.fillsExactly, randomFillBuffer_of_ends hfront hends⟩

/-- 13 bytes of an object of 20. -/
theorem thirteen_bytes_filled :
    ∃ front filled, fillFront ⟨id, fun _ => 0⟩ (fresh 20) 13 = some front ∧
      (∀ s, (fillWords ⟨id, fun _ => 0⟩ (13 - 13 % 8)).Ends front s ↔ s = filled) ∧
      FillsExactly (fresh 20) 13 filled ∧
      randomFillBuffer ⟨id, fun _ => 0⟩ (fresh 20) 13 = some filled.buffer :=
  randomFillBuffer_fillsExactly ⟨id, fun _ => 0⟩ (fresh 20) 13 (by decide)

end

end SyscallReplayer.RandomFill
