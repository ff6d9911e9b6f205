import IDeviceEmulator.Block.Pread
import IDeviceEmulator.Library.Hoare

namespace IDeviceEmulator.Block.Pwrite

open Bytes Hoare

section Store

def storeBytes (image : Int → Byte) (first : Int) (bytes : List Byte) : Int → Byte := fun a ↦
  if first ≤ a then bytes[(a - first).toNat]?.getD (image a) else image a

variable {image : Int → Byte} {first : Int} {bytes : List Byte}

theorem storeBytes_nil (image : Int → Byte) (first : Int) : storeBytes image first [] = image := by
  funext a
  unfold storeBytes
  split_ifs <;> rfl

theorem storeBytes_outside {a : Int} (h : ¬ (first ≤ a ∧ a < first + bytes.length)) :
    storeBytes image first bytes a = image a := by
  unfold storeBytes
  split_ifs with hle
  · rw [List.getElem?_eq_none (by omega), Option.getD_none]
  · rfl

theorem storeBytes_inside {a : Int} {i : Nat} (hi : i < bytes.length) (ha : a = first + i) :
    storeBytes image first bytes a = bytes[i] := by
  have hindex : (a - first).toNat = i := by omega
  rw [storeBytes, if_pos (by omega), hindex, List.getElem?_eq_getElem hi, Option.getD_some]

/-- Bytes that are stored behind others. -/
theorem storeBytes_append (xs ys : List Byte) :
    storeBytes (storeBytes image first xs) (first + xs.length) ys = storeBytes image first (xs ++ ys) := by
  funext a
  by_cases hx : first ≤ a ∧ a < first + xs.length
  · have hi : (a - first).toNat < xs.length := by omega
    have hi' : (a - first).toNat < (xs ++ ys).length := by
      rw [List.length_append]
      omega
    rw [storeBytes_outside (by omega), storeBytes_inside hi (by omega), storeBytes_inside hi' (by omega),
      List.getElem_append_left hi]
  · by_cases hy : first + xs.length ≤ a ∧ a < first + xs.length + ys.length
    · have hi : (a - (first + xs.length)).toNat < ys.length := by omega
      have hi' : (a - first).toNat < (xs ++ ys).length := by
        rw [List.length_append]
        omega
      rw [storeBytes_inside hi (by omega), storeBytes_inside hi' (by omega), List.getElem_append_right (by omega)]
      congr 1
      omega
    · rw [storeBytes_outside hy, storeBytes_outside hx, storeBytes_outside]
      rw [List.length_append]
      omega

theorem imageBytes_storeBytes (image : Int → Byte) (first : Int) (bytes : List Byte) :
    imageBytes (storeBytes image first bytes) first bytes.length = bytes := by
  refine List.ext_getElem (length_imageBytes _ _ _) fun i hi hi' ↦ ?_
  simp only [imageBytes, List.getElem_map, List.getElem_range]
  exact storeBytes_inside hi' rfl

theorem storeBytes_imageBytes (image : Int → Byte) (first : Int) (n : Nat) :
    storeBytes image first (imageBytes image first n) = image := by
  funext a
  have hlength := length_imageBytes image first n
  by_cases ha : first ≤ a ∧ a < first + n
  · have hi : (a - first).toNat < (imageBytes image first n).length := by omega
    have hplace : first + ((a - first).toNat : Int) = a := by omega
    rw [storeBytes_inside hi (by omega)]
    simp only [imageBytes, List.getElem_map, List.getElem_range, hplace]
  · exact storeBytes_outside (by omega)

theorem imageBytes_congr {image' : Int → Byte} {n : Nat} (h : ∀ i < n, image (first + (i : Nat)) = image' (first + i)) :
    imageBytes image first n = imageBytes image' first n :=
  List.map_congr_left fun i hi ↦ h i (List.mem_range.mp hi)

/-- Some bytes of a part of the image are replaced in a copy, and the copy is stored. -/
theorem storeBytes_overwrite {n k : Nat} (h : k + bytes.length ≤ n) :
    storeBytes image first (overwrite (imageBytes image first n) k bytes) = storeBytes image (first + k) bytes := by
  have htake : (imageBytes image first n).take k = imageBytes image first k := take_imageBytes (by omega)
  have hplace : first + ((imageBytes image first k ++ bytes).length : Int) = first + (k + bytes.length : Nat) := by
    rw [List.length_append, length_imageBytes]
  have hrest : imageBytes image (first + (k + bytes.length : Nat)) (n - (k + bytes.length)) =
      imageBytes (storeBytes image (first + k) bytes) (first + (k + bytes.length : Nat)) (n - (k + bytes.length)) :=
    imageBytes_congr fun i _ ↦ (storeBytes_outside (by omega)).symm
  rw [overwrite, htake, drop_imageBytes h, ← storeBytes_append, hplace, ← storeBytes_append, length_imageBytes,
    storeBytes_imageBytes, hrest, storeBytes_imageBytes]

end Store

section Device

/-- How the driver answers a request. A write that fails leaves each byte old or new. -/
inductive Reply
  | done
  | fails (errno : Nat) (torn : Int → Bool)

/-- A device whose driver reads and writes an array of sectors, and the number of requests before. `failed` tells
whether one of them has not been answered. -/
structure Device where
  image : Int → Byte
  sectors : Nat
  inserted : Bool
  readOnly : Bool
  reply : Nat → Int → Nat → Reply
  calls : Nat
  failed : Bool
  sectors_lt : sectors * 512 < 2 ^ 63

abbrev Io := EStateM Int Device

def enomedium : Int := 123

def eio : Int := 5

def eacces : Int := 13

namespace Device

variable (d : Device)

def getlength : Int := d.sectors * 512

/-- `bdrv_check_byte_request` for a device that does not grow. -/
def checkByteRequest (offset : Int) (size : Nat) : Int :=
  if d.inserted = false then -enomedium
  else if offset < 0 then -eio
  else if d.getlength < offset ∨ d.getlength - offset < size then -eio
  else 0

def checkRequest (sector : Int) (nbSectors : Nat) : Int := d.checkByteRequest (sector * 512) (nbSectors * 512)

/-- The driver, as it answers. -/
def answer (sector : Int) (nbSectors : Nat) : Int :=
  match d.reply d.calls sector nbSectors with
  | .done => 0
  | .fails errno _ => -(errno + 1)

/-- `bdrv_read`, with the bytes that it stores. -/
def bdrvRead (sector : Int) (nbSectors : Nat) : Int × List Byte :=
  if d.checkRequest sector nbSectors ≠ 0 then (-eio, [])
  else if d.answer sector nbSectors < 0 then (d.answer sector nbSectors, [])
  else (0, imageBytes d.image (sector * 512) (nbSectors * 512))

variable {d}

theorem checkRequest_eq_zero (hinserted : d.inserted = true) {sector : Int} {nbSectors : Nat} :
    d.checkRequest sector nbSectors = 0 ↔ 0 ≤ sector ∧ sector * 512 + nbSectors * 512 ≤ d.getlength := by
  unfold checkRequest checkByteRequest
  rw [if_neg (by rw [hinserted]; exact Bool.noConfusion)]
  split_ifs with hneg hend
  · exact ⟨fun h ↦ absurd h (by decide), fun h ↦ by omega⟩
  · exact ⟨fun h ↦ absurd h (by decide), fun h ↦ by omega⟩
  · exact ⟨fun _ ↦ by omega, fun _ ↦ rfl⟩

theorem checkRequest_inserted {sector : Int} {nbSectors : Nat} (h : d.checkRequest sector nbSectors = 0) :
    d.inserted = true := by
  cases hinserted : d.inserted with
  | true => rfl
  | false =>
    unfold checkRequest checkByteRequest at h
    rw [if_pos hinserted] at h
    exact absurd h (by decide)

/-- The device as `bdrv_pread` sees it, for which the answers do not depend on the order of the requests. -/
def disk (d : Device) : Disk where
  image := d.image
  length := d.sectors * 512
  read := d.bdrvRead
  length_lt := d.sectors_lt
  stored sector n := by
    unfold bdrvRead
    split_ifs
    · exact Nat.zero_le _
    · exact Nat.zero_le _
    · exact Nat.le_of_eq (length_imageBytes _ _ _)
  whole sector n h := by
    unfold bdrvRead at h ⊢
    split_ifs at h ⊢ with hcheck hfail
    · exact absurd h (by decide)
    · exact absurd h (Int.not_le.mpr hfail)
    · rfl
  inside sector n h := by
    unfold bdrvRead at h
    split_ifs at h with hcheck hfail
    · exact absurd h (by decide)
    · exact absurd h (Int.not_le.mpr hfail)
    · have hcheck' : d.checkRequest sector n = 0 := not_not.mp hcheck
      exact (checkRequest_eq_zero (checkRequest_inserted hcheck')).mp hcheck'

variable {sector : Int} {nbSectors : Nat}

theorem answer_neg_iff : d.answer sector nbSectors < 0 ↔ d.reply d.calls sector nbSectors ≠ .done := by
  unfold answer
  cases d.reply d.calls sector nbSectors with
  | done => exact ⟨fun h ↦ absurd h (by decide), fun h ↦ absurd rfl h⟩
  | fails errno torn => exact ⟨fun _ ↦ Reply.noConfusion, fun _ ↦ by dsimp only; omega⟩

theorem bdrvRead_inside (hinserted : d.inserted = true) (hstart : 0 ≤ sector)
    (hend : sector * 512 + nbSectors * 512 ≤ d.getlength) :
    d.bdrvRead sector nbSectors =
      if d.answer sector nbSectors < 0 then (d.answer sector nbSectors, [])
      else (0, imageBytes d.image (sector * 512) (nbSectors * 512)) := by
  rw [bdrvRead, if_neg (not_not.mpr ((checkRequest_eq_zero hinserted).mpr ⟨hstart, hend⟩))]

end Device

end Device

section Program

open Device

/-- `bdrv_read` into a buffer of its own. -/
def read (sector : Int) (nbSectors : Nat) : Io (List Byte) := do
  let d ← get
  let (ret, bytes) := d.bdrvRead sector nbSectors
  set { d with calls := d.calls + 1, failed := d.failed || ret < 0 }
  if ret < 0 then throw ret else pure bytes

/-- The write function of the driver. -/
def driverWrite (sector : Int) (bytes : List Byte) : Io Unit := do
  let d ← get
  match d.reply d.calls sector (bytes.length / 512) with
  | .done => set { d with image := storeBytes d.image (sector * 512) bytes, calls := d.calls + 1 }
  | .fails errno torn => do
    set { d with
      image := fun a ↦ if torn a then storeBytes d.image (sector * 512) bytes a else d.image a
      calls := d.calls + 1
      failed := true }
    throw (-((errno : Int) + 1))

/-- `bdrv_write` of whole sectors. -/
def write (sector : Int) (bytes : List Byte) : Io Unit := do
  let d ← get
  if d.inserted = false then throw (-enomedium)
  else if d.readOnly then throw (-eacces)
  else if d.checkRequest sector (bytes.length / 512) ≠ 0 then throw (-eio)
  else driverWrite sector bytes

/-- A part of a sector is replaced. -/
def modifySector (sector : Int) (start : Nat) (buf : List Byte) : Io Unit := do
  let tmpBuf ← read sector 1
  write sector (overwrite tmpBuf start buf)

/-- The last part of `bdrv_pwrite`. -/
def pwriteTail (count1 : Nat) (sector : Int) (buf : List Byte) : Io Nat :=
  if 0 < buf.length then do
    modifySector sector 0 buf
    pure count1
  else pure count1

/-- The sectors that are written in place, and what comes after them. -/
def pwriteSectors (count1 : Nat) (sector : Int) (buf : List Byte) : Io Nat :=
  let nbSectors := buf.length / 512
  if 0 < nbSectors then do
    write sector (buf.take (nbSectors * 512))
    pwriteTail count1 (sector + nbSectors) (buf.drop (nbSectors * 512))
  else pwriteTail count1 sector buf

/-- `bdrv_pwrite`, where `buf` are the bytes that are left. -/
def pwrite (offset : Int) (buf : List Byte) : Io Nat :=
  let len := min ((512 - offset) % 512) buf.length
  if 0 < len then do
    modifySector (offset / 512) (offset % 512).toNat (buf.take len.toNat)
    if (buf.drop len.toNat).length = 0 then pure buf.length
    else pwriteSectors buf.length (offset / 512 + 1) (buf.drop len.toNat)
  else pwriteSectors buf.length (offset / 512) buf

end Program

section Exact

variable {d d' t : Device} {sector offset : Int} {n m start : Nat} {buf : List Byte}

/-- Bytes have been written, and no request has failed. -/
def Written (d : Device) (offset : Int) (buf : List Byte) (t : Device) : Prop :=
  ∃ calls, t = { d with image := storeBytes d.image offset buf, calls := calls }

/-- A request has failed, and the bytes outside a range are as they were. -/
structure Refused (d : Device) (offset : Int) (n : Nat) (e : Int) (t : Device) : Prop where
  negative : e < 0
  failed : t.failed = true
  request : ∃ k sector m, d.reply k sector m ≠ .done
  outside : ∀ a, ¬ (offset ≤ a ∧ a < offset + n) → t.image a = d.image a

/-- A device that can be written to. -/
structure Device.Ready (d : Device) : Prop where
  inserted : d.inserted = true
  writable : d.readOnly = false

theorem Written.ready (h : Written d offset buf t) (hd : d.Ready) : t.Ready := by
  obtain ⟨calls, rfl⟩ := h
  exact ⟨hd.inserted, hd.writable⟩

theorem Written.getlength (h : Written d offset buf t) : t.getlength = d.getlength := by
  obtain ⟨calls, rfl⟩ := h
  rfl

theorem Written.trans {xs ys : List Byte} (h : Written d offset xs d') (h' : Written d' (offset + xs.length) ys t) :
    Written d offset (xs ++ ys) t := by
  obtain ⟨calls, rfl⟩ := h
  obtain ⟨calls', rfl⟩ := h'
  refine ⟨calls', ?_⟩
  rw [← storeBytes_append]

theorem Refused.behind {xs : List Byte} {e : Int} (h : Written d offset xs d')
    (h' : Refused d' (offset + xs.length) n e t) : Refused d offset (xs.length + n) e t := by
  obtain ⟨calls, rfl⟩ := h
  refine ⟨h'.negative, h'.failed, h'.request, fun a ha ↦ ?_⟩
  rw [h'.outside a (by omega)]
  exact storeBytes_outside (by omega)

theorem Refused.widen {e : Int} (h : Refused d offset n e t) (hn : n ≤ m) : Refused d offset m e t :=
  ⟨h.negative, h.failed, h.request, fun a ha ↦ h.outside a (by omega)⟩

theorem spec_read (offset : Int) (hd : d.Ready) (hstart : 0 ≤ sector) (hend : sector * 512 + n * 512 ≤ d.getlength)
    (k : Nat) :
    Triple (· = d) (read sector n)
      (fun bytes t ↦ bytes = imageBytes d.image (sector * 512) (n * 512) ∧ t = { d with calls := d.calls + 1 })
      (Refused d offset k) := by
  intro s hs
  subst s
  unfold read
  rw [get_bind, Device.bdrvRead_inside hd.inserted hstart hend]
  by_cases hfail : d.answer sector n < 0
  · rw [if_pos hfail]
    dsimp only
    rw [if_pos hfail, decide_eq_true hfail]
    exact ⟨hfail, Bool.or_true _, ⟨_, _, _, Device.answer_neg_iff.mp hfail⟩, fun _ _ ↦ rfl⟩
  · rw [if_neg hfail]
    refine ⟨rfl, ?_⟩
    change { d with calls := d.calls + 1, failed := d.failed || false } = _
    rw [Bool.or_false]

/-- The bytes that a write is to change lie in a range. -/
theorem spec_write (offset : Int) (m : Nat) (hd : d.Ready) (hstart : 0 ≤ sector) (hlength : buf.length = n * 512)
    (hend : sector * 512 + n * 512 ≤ d.getlength)
    (hsame : ∀ a, ¬ (offset ≤ a ∧ a < offset + m) → storeBytes d.image (sector * 512) buf a = d.image a) :
    Triple (· = d) (write sector buf)
      (fun _ t ↦ t = { d with image := storeBytes d.image (sector * 512) buf, calls := d.calls + 1 })
      (Refused d offset m) := by
  intro s hs
  subst s
  have hsectors : buf.length / 512 = n := by omega
  unfold write
  rw [get_bind, if_neg (by rw [hd.inserted]; exact Bool.noConfusion),
    if_neg (by rw [hd.writable]; exact Bool.noConfusion), hsectors,
    if_neg (not_not.mpr ((Device.checkRequest_eq_zero hd.inserted).mpr ⟨hstart, hend⟩)), driverWrite, get_bind,
    hsectors]
  cases hreply : d.reply d.calls sector n with
  | done => rfl
  | fails errno torn =>
    have hneg : -((errno : Int) + 1) < 0 := by omega
    refine ⟨hneg, rfl, ⟨d.calls, sector, n, fun h ↦ Reply.noConfusion (hreply.symm.trans h)⟩, fun a ha ↦ ?_⟩
    change (if torn a then storeBytes d.image (sector * 512) buf a else d.image a) = d.image a
    split_ifs
    · exact hsame a ha
    · rfl

theorem spec_modifySector (sector offset : Int) (start : Nat) (buf : List Byte) (hd : d.Ready) (hstart : 0 ≤ sector)
    (hend : sector * 512 + 512 ≤ d.getlength) (hin : start + buf.length ≤ 512)
    (hoffset : offset = sector * 512 + start) :
    Triple (· = d) (modifySector sector start buf) (fun _ t ↦ Written d offset buf t)
      (Refused d offset buf.length) := by
  have hlength := length_imageBytes d.image (sector * 512) (1 * 512)
  have hread := spec_read (n := 1) offset hd hstart (by omega) buf.length
  unfold modifySector
  refine hread.bind fun tmpBuf ↦ triple_of_forall fun u ⟨htmp, hu⟩ ↦ ?_
  rw [htmp]
  have hstore : storeBytes d.image (sector * 512) (overwrite (imageBytes d.image (sector * 512) (1 * 512)) start buf) =
      storeBytes d.image offset buf := by
    rw [storeBytes_overwrite (by omega), hoffset]
  have hsize : (overwrite (imageBytes d.image (sector * 512) (1 * 512)) start buf).length = 1 * 512 := by
    rw [length_overwrite (by omega), hlength]
  have hready : u.Ready := by
    rw [hu]
    exact ⟨hd.inserted, hd.writable⟩
  have himage : u.image = d.image := by rw [hu]
  have hgetlength : u.getlength = d.getlength := by rw [hu]; rfl
  refine (spec_write offset buf.length hready hstart hsize (by omega) fun a ha ↦ ?_).weaken
    (fun _ h ↦ h) (fun _ t ht ↦ ?_) fun e t he ↦ ?_
  · rw [himage, hstore]
    exact storeBytes_outside ha
  · rw [himage, hstore, hu] at ht
    exact ⟨d.calls + 1 + 1, ht⟩
  · rw [hu] at he
    exact ⟨he.negative, he.failed, he.request, he.outside⟩

theorem spec_pwriteTail (sector : Int) (buf : List Byte) (hd : d.Ready) (hstart : 0 ≤ sector)
    (hend : sector * 512 + buf.length ≤ d.getlength) (hlength : buf.length < 512) (count1 : Nat) :
    Triple (· = d) (pwriteTail count1 sector buf) (fun ret t ↦ ret = count1 ∧ Written d (sector * 512) buf t)
      (Refused d (sector * 512) buf.length) := by
  have hdevice : d.getlength = d.sectors * 512 := rfl
  unfold pwriteTail
  refine triple_ite (fun hpos ↦ ?_) fun hpos ↦ triple_pure fun t ht ↦ ⟨rfl, t.calls, ?_⟩
  · have hmodify := spec_modifySector sector (sector * 512) 0 buf hd hstart (by omega) (by omega) (by omega)
    exact hmodify.bind fun _ ↦ triple_pure fun t ht ↦ ⟨rfl, ht⟩
  · rw [List.length_eq_zero_iff.mp (by omega : buf.length = 0), storeBytes_nil, ht]

theorem spec_pwriteSectors (sector : Int) (buf : List Byte) (hd : d.Ready) (hstart : 0 ≤ sector)
    (hend : sector * 512 + buf.length ≤ d.getlength) (count1 : Nat) :
    Triple (· = d) (pwriteSectors count1 sector buf) (fun ret t ↦ ret = count1 ∧ Written d (sector * 512) buf t)
      (Refused d (sector * 512) buf.length) := by
  have htake : (buf.take (buf.length / 512 * 512)).length = buf.length / 512 * 512 := by
    rw [List.length_take]
    omega
  have hdrop : (buf.drop (buf.length / 512 * 512)).length = buf.length % 512 := by
    rw [List.length_drop]
    omega
  unfold pwriteSectors
  dsimp only
  refine triple_ite (fun hpos ↦ ?_) fun hpos ↦ spec_pwriteTail sector buf hd hstart hend (by omega) count1
  have hmiddle := spec_write (sector * 512) buf.length hd hstart htake (by omega) fun a ha ↦
    storeBytes_outside (by omega)
  refine hmiddle.bind fun _ ↦ triple_of_forall fun u hu ↦ ?_
  have hwritten : Written d (sector * 512) (buf.take (buf.length / 512 * 512)) u := ⟨d.calls + 1, hu⟩
  have hplace : (sector + ((buf.length / 512 : Nat) : Int)) * 512 =
      sector * 512 + (buf.take (buf.length / 512 * 512)).length := by omega
  have htail := spec_pwriteTail (sector + (buf.length / 512 : Nat)) (buf.drop (buf.length / 512 * 512))
    (hwritten.ready hd) (by omega) (by rw [hwritten.getlength]; omega) (by omega) count1
  rw [hplace] at htail
  refine htail.weaken (fun _ h ↦ h) (fun ret t ⟨hret, ht⟩ ↦ ⟨hret, ?_⟩) fun e t he ↦ ?_
  · have hall := hwritten.trans ht
    rwa [List.take_append_drop] at hall
  · exact (he.behind hwritten).widen (by omega)

/-- A write replaces its bytes, or fails and changes no others. -/
theorem spec_pwrite (hd : d.Ready) (hstart : 0 ≤ offset) (hend : offset + buf.length ≤ d.getlength) :
    Triple (· = d) (pwrite offset buf) (fun ret t ↦ ret = buf.length ∧ Written d offset buf t)
      (Refused d offset buf.length) := by
  have hdevice : d.getlength = d.sectors * 512 := rfl
  unfold pwrite
  dsimp only
  refine triple_ite (fun hpos ↦ ?_) fun hpos ↦ ?_
  · obtain ⟨len, hlen⟩ : ∃ len : Nat, min ((512 - offset) % 512) (buf.length : Int) = len :=
      Int.eq_ofNat_of_zero_le (by omega)
    rw [hlen, Int.toNat_natCast]
    have htake : (buf.take len).length = len := by
      rw [List.length_take]
      omega
    have hdrop : (buf.drop len).length = buf.length - len := List.length_drop
    have hhead := spec_modifySector (offset / 512) offset (offset % 512).toNat (buf.take len) hd (by omega) (by omega)
      (by omega) (by omega)
    refine (hhead.weaken (fun _ h ↦ h) (fun _ _ h ↦ h) fun e t he ↦ he.widen (by omega)).bind fun _ ↦
      triple_of_forall fun u hu ↦ triple_ite (fun hdone ↦ triple_pure fun t ht ↦ ⟨rfl, ?_⟩) fun hmore ↦ ?_
    · rwa [ht, ← List.take_append_drop len buf, List.length_eq_zero_iff.mp hdone, List.append_nil]
    · have hplace : (offset / 512 + 1) * 512 = offset + (buf.take len).length := by omega
      have hsectors := spec_pwriteSectors (offset / 512 + 1) (buf.drop len) (hu.ready hd) (by omega)
        (by rw [hu.getlength]; omega) buf.length
      rw [hplace] at hsectors
      refine hsectors.weaken (fun _ h ↦ h) (fun ret t ⟨hret, ht⟩ ↦ ⟨hret, ?_⟩) fun e t he ↦ ?_
      · have hall := hu.trans ht
        rwa [List.take_append_drop] at hall
      · exact (he.behind hu).widen (by omega)
  · by_cases hempty : buf.length = 0
    · have hnothing : pwriteSectors buf.length (offset / 512) buf = pure buf.length := by
        unfold pwriteSectors pwriteTail
        dsimp only
        rw [if_neg (by omega), if_neg (by omega)]
      rw [hnothing]
      refine triple_pure fun t ht ↦ ⟨rfl, t.calls, ?_⟩
      rw [List.length_eq_zero_iff.mp hempty, storeBytes_nil, ht]
    · have hplace : offset / 512 * 512 = offset := by omega
      have hsectors := spec_pwriteSectors (offset / 512) buf hd (by omega) (by omega) buf.length
      rwa [hplace] at hsectors

/-- A request inside the device fails. -/
def Broken (d : Disk) : Prop :=
  ∃ (sector : Int) (n : Nat), 0 ≤ sector ∧ sector * 512 + n * 512 ≤ d.length ∧ (d.read sector n).1 < 0

/-- A read returns the count, or it fails. -/
def Returns (d : Disk) (count1 ret : Int) : Prop := ret = count1 ∨ ret < 0 ∧ Broken d

section Returns

variable {d : Disk} {count1 count : Int} {stored : List Byte}

theorem returns_preadTail (hstart : 0 ≤ sector) (hend : sector * 512 + count ≤ d.length)
    (hsectors : d.length % 512 = 0) : Returns d count1 (preadTail d count1 sector count stored).1 := by
  unfold preadTail
  dsimp only
  split_ifs with hpos hfail
  · exact .inr ⟨hfail, sector, 1, hstart, by omega, hfail⟩
  · exact .inl rfl
  · exact .inl rfl

theorem returns_preadSectors (hstart : 0 ≤ sector) (hend : sector * 512 + count ≤ d.length)
    (hsectors : d.length % 512 = 0) : Returns d count1 (preadSectors d count1 sector count stored).1 := by
  unfold preadSectors
  dsimp only
  split_ifs with hpos hfail
  · exact .inr ⟨hfail, sector, (count / 512).toNat, hstart, by omega, hfail⟩
  · exact returns_preadTail (by omega) (by omega) hsectors
  · exact returns_preadTail hstart hend hsectors

theorem returns_pread (hstart : 0 ≤ offset) (hcount : 0 ≤ count1) (hend : offset + count1 ≤ d.length)
    (hsectors : d.length % 512 = 0) : Returns d count1 (pread d offset count1).1 := by
  unfold pread
  dsimp only
  split_ifs with hpos hfail hdone
  · exact .inr ⟨hfail, offset / 512, 1, by omega, by omega, hfail⟩
  · exact .inl rfl
  · exact returns_preadSectors (by omega) (by omega) hsectors
  · by_cases hzero : count1 = 0
    · rw [preadSectors_of_nonpos d _ _ (by omega)]
      exact .inl rfl
    · exact returns_preadSectors (by omega) (by omega) hsectors

/-- A read that does not fail gives the bytes of the image. -/
theorem pread_exact (hstart : 0 ≤ offset) (hcount : 0 ≤ count1) (hend : offset + count1 ≤ d.length)
    (hsectors : d.length % 512 = 0) (hret : 0 ≤ (pread d offset count1).1) :
    pread d offset count1 = (count1, imageBytes d.image offset count1.toNat) := by
  by_cases hzero : count1 = 0
  · subst hzero
    rw [pread, if_neg (by omega), preadSectors_of_nonpos d _ _ (Int.le_refl 0)]
    rfl
  · rcases returns_pread hstart hcount hend hsectors with heq | ⟨hneg, -⟩
    · exact Prod.ext heq (pread_image (by omega)).2.bytes
    · omega

end Returns

/-- A driver that answers every request does not make a read fail. -/
theorem Device.not_broken (hd : d.Ready) (h : ∀ sector n, d.reply d.calls sector n = .done) : ¬ Broken d.disk := by
  rintro ⟨sector, n, hstart, hend, hfail⟩
  have hanswer : ¬ d.answer sector n < 0 := fun hneg ↦ Device.answer_neg_iff.mp hneg (h sector n)
  change (d.bdrvRead sector n).1 < 0 at hfail
  rw [Device.bdrvRead_inside hd.inserted hstart hend, if_neg hanswer] at hfail
  exact absurd hfail (Int.lt_irrefl 0)

/-- Reads give the bytes of the image, writes replace them, and a failed write has changed no other byte. -/
theorem byte_access_exact (d : Device) (hd : d.Ready) (offset : Int) (hoffset : 0 ≤ offset) :
    (∀ count : Int, 0 ≤ count → offset + count ≤ d.getlength →
      (0 ≤ (pread d.disk offset count).1 →
        pread d.disk offset count = (count, imageBytes d.image offset count.toNat)) ∧
      ((∀ sector n, d.reply d.calls sector n = .done) →
        pread d.disk offset count = (count, imageBytes d.image offset count.toNat))) ∧
    ∀ buf : List Byte, offset + buf.length ≤ d.getlength →
      (match pwrite offset buf d with
        | .ok ret t => ret = buf.length ∧ t.image = storeBytes d.image offset buf ∧ t.failed = d.failed
        | .error e t => e < 0 ∧ t.failed = true ∧
          ∀ a, ¬ (offset ≤ a ∧ a < offset + buf.length) → t.image a = d.image a) ∧
      ((∀ k sector n, d.reply k sector n = .done) → ∃ t, pwrite offset buf d = .ok buf.length t) := by
  have hlength : (d.disk.length : Int) = d.getlength := Int.natCast_mul _ _
  have hsectors : d.disk.length % 512 = 0 := Nat.mul_mod_left _ _
  refine ⟨fun count hcount hend ↦ ⟨pread_exact hoffset hcount (by omega) hsectors, fun hreply ↦ ?_⟩,
    fun buf hend ↦ ⟨?_, fun hreply ↦ ?_⟩⟩
  · refine pread_exact hoffset hcount (by omega) hsectors ?_
    rcases returns_pread hoffset hcount (by omega : offset + count ≤ d.disk.length) hsectors with heq | ⟨-, hbroken⟩
    · rwa [heq]
    · exact absurd hbroken (Device.not_broken hd hreply)
  · have hspec := spec_pwrite hd hoffset hend d rfl
    cases hrun : pwrite offset buf d with
    | ok ret t =>
      rw [hrun] at hspec
      obtain ⟨hret, calls, rfl⟩ := hspec
      exact ⟨hret, rfl, rfl⟩
    | error e t =>
      rw [hrun] at hspec
      exact ⟨hspec.negative, hspec.failed, hspec.outside⟩
  · have hspec := spec_pwrite hd hoffset hend d rfl
    cases hrun : pwrite offset buf d with
    | ok ret t =>
      rw [hrun] at hspec
      exact ⟨t, by rw [hspec.1]⟩
    | error e t =>
      rw [hrun] at hspec
      obtain ⟨k, sector, n, hfail⟩ := hspec.request
      exact absurd (hreply k sector n) hfail

def twoSectors : Device where
  image a := BitVec.ofInt 8 a
  sectors := 2
  inserted := true
  readOnly := false
  reply _ _ _ := .done
  calls := 0
  failed := false
  sectors_lt := by decide

theorem byte_access_exact_twoSectors :
    pread twoSectors.disk 510 5 = (5, imageBytes twoSectors.image 510 5) ∧
      ∃ t, pwrite 510 [1, 2, 3, 4, 5] twoSectors = .ok 5 t := by
  have hexact := byte_access_exact twoSectors ⟨rfl, rfl⟩ 510 (by decide)
  exact ⟨(hexact.1 5 (by decide) (by decide)).2 fun _ _ ↦ rfl, (hexact.2 [1, 2, 3, 4, 5] (by decide)).2 fun _ _ _ ↦ rfl⟩

end Exact

end IDeviceEmulator.Block.Pwrite
