import IDeviceEmulator.Library.Bytes

namespace IDeviceEmulator.Block

open Bytes

section Image

/-- The bytes of an image from an offset on. -/
def imageBytes (image : Int → Byte) (first : Int) (n : Nat) : List Byte :=
  (List.range n).map fun i : Nat ↦ image (first + i)

variable {image : Int → Byte} {first : Int}

theorem length_imageBytes (image : Int → Byte) (first : Int) (n : Nat) : (imageBytes image first n).length = n := by
  rw [imageBytes, List.length_map, List.length_range]

theorem imageBytes_append (m n : Nat) :
    imageBytes image first m ++ imageBytes image (first + m) n = imageBytes image first (m + n) := by
  unfold imageBytes
  rw [List.range_add, List.map_append, List.map_map]
  congr 1
  apply List.map_congr_left
  intro i _
  change image (first + m + i) = image (first + ((m + i : Nat) : Int))
  rw [Int.natCast_add, Int.add_assoc]

theorem take_imageBytes {m n : Nat} (h : m ≤ n) : (imageBytes image first n).take m = imageBytes image first m := by
  obtain ⟨k, rfl⟩ := Nat.exists_eq_add_of_le h
  rw [← imageBytes_append, List.take_left' (length_imageBytes image first m)]

theorem drop_imageBytes {m n : Nat} (h : m ≤ n) :
    (imageBytes image first n).drop m = imageBytes image (first + m) (n - m) := by
  obtain ⟨k, rfl⟩ := Nat.exists_eq_add_of_le h
  rw [← imageBytes_append, List.drop_left' (length_imageBytes image first m), Nat.add_sub_cancel_left]

end Image

/-- A block device that is not growable. `bdrv_read` of some sectors returns a number, which is
negative on an error, and has stored some bytes, on success those of the image. -/
structure Disk where
  image : Int → Byte
  length : Nat
  read : Int → Nat → Int × List Byte
  length_lt : length < 2 ^ 63
  stored : ∀ sector n, (read sector n).2.length ≤ n * 512
  whole : ∀ sector n, 0 ≤ (read sector n).1 → (read sector n).2 = imageBytes image (sector * 512) (n * 512)
  inside : ∀ sector n, 0 ≤ (read sector n).1 → 0 ≤ sector ∧ sector * 512 + n * 512 ≤ length

/-- A device whose reads succeed inside the image. -/
def ofImage (image : Int → Byte) (length : Nat) (h : length < 2 ^ 63) : Disk where
  image := image
  length := length
  read sector n :=
    if 0 ≤ sector ∧ sector * 512 + n * 512 ≤ length then (0, imageBytes image (sector * 512) (n * 512)) else (-5, [])
  length_lt := h
  stored sector n := by
    split_ifs
    · exact Nat.le_of_eq (length_imageBytes image _ _)
    · exact Nat.zero_le _
  whole sector n hread := by
    split_ifs at hread ⊢
    · rfl
    · exact absurd hread (by decide)
  inside sector n hread := by
    split_ifs at hread with hinside
    · exact hinside
    · exact absurd hread (by decide)

variable (d : Disk)

/-- The last part of `bdrv_pread`, behind the bytes that it stored before. -/
def preadTail (count1 sector count : Int) (stored : List Byte) : Int × List Byte :=
  if 0 < count then
    let tail := d.read sector 1
    if tail.1 < 0 then (tail.1, stored) else (count1, stored ++ tail.2.take count.toNat)
  else (count1, stored)

/-- The sectors that are read in place, and what comes after them. -/
def preadSectors (count1 sector count : Int) (stored : List Byte) : Int × List Byte :=
  let nbSectors := count / 512
  if 0 < nbSectors then
    let middle := d.read sector nbSectors.toNat
    if middle.1 < 0 then (middle.1, stored ++ middle.2)
    else preadTail d count1 (sector + nbSectors) (count - nbSectors * 512) (stored ++ middle.2)
  else preadTail d count1 sector count stored

/-- `bdrv_pread`: the number that it returns, and the bytes that it stores. -/
def pread (offset count1 : Int) : Int × List Byte :=
  let len := min ((512 - offset) % 512) count1
  if 0 < len then
    let head := d.read (offset / 512) 1
    if head.1 < 0 then (head.1, [])
    else
      let stored := (head.2.drop (offset % 512).toNat).take len.toNat
      if count1 - len = 0 then (count1, stored)
      else preadSectors d count1 (offset / 512 + 1) (count1 - len) stored
  else preadSectors d count1 (offset / 512) count1 []

section Lengths

theorem length_preadTail (count1 sector count : Int) (stored : List Byte) :
    (preadTail d count1 sector count stored).2.length ≤ stored.length + count.toNat := by
  unfold preadTail
  dsimp only
  split_ifs
  · exact Nat.le_add_right _ _
  · rw [List.length_append, List.length_take]
    exact Nat.add_le_add_left (Nat.min_le_left _ _) _
  · exact Nat.le_add_right _ _

theorem length_preadSectors (count1 sector count : Int) (stored : List Byte) :
    (preadSectors d count1 sector count stored).2.length ≤ stored.length + count.toNat := by
  unfold preadSectors
  have hstored := d.stored sector (count / 512).toNat
  dsimp only
  split_ifs
  · rw [List.length_append]
    omega
  · have htail := length_preadTail d count1 (sector + count / 512) (count - count / 512 * 512)
      (stored ++ (d.read sector (count / 512).toNat).2)
    rw [List.length_append] at htail
    omega
  · exact length_preadTail d count1 sector count stored

/-- No more bytes are stored than were asked for. -/
theorem length_pread (offset count1 : Int) : (pread d offset count1).2.length ≤ count1.toNat := by
  unfold pread
  dsimp only
  split_ifs
  · exact Nat.zero_le _
  · rw [List.length_take]
    omega
  · have hsectors := length_preadSectors d count1 (offset / 512 + 1) (count1 - min ((512 - offset) % 512) count1)
      (((d.read (offset / 512) 1).2.drop (offset % 512).toNat).take (min ((512 - offset) % 512) count1).toNat)
    rw [List.length_take] at hsectors
    omega
  · have hsectors := length_preadSectors d count1 (offset / 512) count1 []
    rw [List.length_nil, Nat.zero_add] at hsectors
    exact hsectors

end Lengths

section Success

variable {d}

/-- The bytes up to a place are those of the image, and this is inside it. -/
structure Loaded (d : Disk) (offset : Int) (n : Nat) (stored : List Byte) : Prop where
  bytes : stored = imageBytes d.image offset n
  inside : 0 < n → 0 ≤ offset ∧ offset + n ≤ d.length

theorem Loaded.append {offset sector : Int} {m n k : Nat} {stored bytes : List Byte} (h : Loaded d offset m stored)
    (hplace : sector * 512 = offset + m) (hread : 0 ≤ (d.read sector k).1)
    (hbytes : bytes = (d.read sector k).2.take n) (hn : n ≤ k * 512) : Loaded d offset (m + n) (stored ++ bytes) := by
  have hinside := d.inside sector k hread
  constructor
  · rw [hbytes, d.whole sector k hread, take_imageBytes hn, h.bytes, hplace, imageBytes_append]
  · intro hpos
    have hbefore := h.inside
    omega

theorem loaded_preadTail {offset count1 sector count : Int} {m : Nat} {stored : List Byte}
    (h : Loaded d offset m stored)
    (hplace : 0 < count → sector * 512 = offset + m) (hcount : count < 512) (hneg : 0 ≤ count)
    (hret : 0 < (preadTail d count1 sector count stored).1) :
    (preadTail d count1 sector count stored).1 = count1 ∧
      Loaded d offset (m + count.toNat) (preadTail d count1 sector count stored).2 := by
  unfold preadTail at hret ⊢
  dsimp only at hret ⊢
  split_ifs at hret ⊢ with hpos hfail
  · dsimp only at hret
    omega
  · exact ⟨rfl, h.append (hplace hpos) (by omega) rfl (by omega)⟩
  · have hzero : count.toNat = 0 := by omega
    rw [hzero]
    exact ⟨rfl, h⟩

theorem loaded_preadSectors {offset count1 sector count : Int} {m : Nat} {stored : List Byte}
    (h : Loaded d offset m stored) (hplace : sector * 512 = offset + m) (hneg : 0 ≤ count)
    (hret : 0 < (preadSectors d count1 sector count stored).1) :
    (preadSectors d count1 sector count stored).1 = count1 ∧
      Loaded d offset (m + count.toNat) (preadSectors d count1 sector count stored).2 := by
  unfold preadSectors at hret ⊢
  dsimp only at hret ⊢
  split_ifs at hret ⊢ with hpos hfail
  · dsimp only at hret
    omega
  · have hwhole := d.whole sector (count / 512).toNat (by omega)
    have hmiddle :
        Loaded d offset (m + (count / 512).toNat * 512) (stored ++ (d.read sector (count / 512).toNat).2) := by
      apply h.append hplace (by omega) _ (Nat.le_refl _)
      rw [hwhole, take_imageBytes (Nat.le_refl _)]
    have htail := loaded_preadTail hmiddle (by omega) (by omega) (by omega) hret
    have hsum : m + (count / 512).toNat * 512 + (count - count / 512 * 512).toNat = m + count.toNat := by omega
    rw [hsum] at htail
    exact htail
  · exact loaded_preadTail h (fun _ ↦ hplace) (by omega) hneg hret

theorem loaded_head {offset count1 : Int} (hpos : 0 < min ((512 - offset) % 512) count1)
    (hread : 0 ≤ (d.read (offset / 512) 1).1) :
    Loaded d offset (min ((512 - offset) % 512) count1).toNat
      (((d.read (offset / 512) 1).2.drop (offset % 512).toNat).take (min ((512 - offset) % 512) count1).toNat) := by
  have hinside := d.inside (offset / 512) 1 hread
  have hplace : offset / 512 * 512 + ((offset % 512).toNat : Int) = offset := by omega
  constructor
  · rw [d.whole (offset / 512) 1 hread, drop_imageBytes (by omega), take_imageBytes (by omega), hplace]
  · intro _
    omega

/-- A count that is not positive is returned. -/
theorem preadSectors_of_nonpos {count1 : Int} (d : Disk) (sector : Int) (stored : List Byte) (h : count1 ≤ 0) :
    preadSectors d count1 sector count1 stored = (count1, stored) := by
  have hsectors : ¬ 0 < count1 / 512 := by omega
  have hcount : ¬ 0 < count1 := by omega
  unfold preadSectors preadTail
  dsimp only
  rw [if_neg hsectors, if_neg hcount]

/-- A read that returns a positive number has stored the bytes of the image. -/
theorem pread_image {offset count1 : Int} (hret : 0 < (pread d offset count1).1) :
    (pread d offset count1).1 = count1 ∧ Loaded d offset count1.toNat (pread d offset count1).2 := by
  unfold pread at hret ⊢
  dsimp only at hret ⊢
  split_ifs at hret ⊢ with hpos hfail hdone
  · dsimp only at hret
    omega
  · have hhead := loaded_head hpos (Int.not_lt.mp hfail)
    have hall : (min ((512 - offset) % 512) count1).toNat = count1.toNat := by omega
    rw [hall] at hhead ⊢
    exact ⟨rfl, hhead⟩
  · have hhead := loaded_head hpos (Int.not_lt.mp hfail)
    have hplace : (offset / 512 + 1) * 512 = offset + ((min ((512 - offset) % 512) count1).toNat : Int) := by omega
    have hrest : 0 ≤ count1 - min ((512 - offset) % 512) count1 := by omega
    have hsectors := loaded_preadSectors hhead hplace hrest hret
    have hsum : (min ((512 - offset) % 512) count1).toNat + (count1 - min ((512 - offset) % 512) count1).toNat =
        count1.toNat := by omega
    rw [hsum] at hsectors
    exact hsectors
  · have hnothing : Loaded d offset 0 [] := ⟨rfl, fun h ↦ absurd h (Nat.lt_irrefl 0)⟩
    have hcount : 0 < count1 := by
      by_contra hneg
      have hreturn := preadSectors_of_nonpos d (offset / 512) [] (Int.not_lt.mp hneg)
      rw [hreturn] at hret
      exact hneg hret
    have hsectors := loaded_preadSectors hnothing (by omega) (Int.le_of_lt hcount) hret
    rw [Nat.zero_add] at hsectors
    exact hsectors

end Success

end IDeviceEmulator.Block
