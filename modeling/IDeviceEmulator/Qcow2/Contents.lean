import IDeviceEmulator.Qcow2.Writes

namespace IDeviceEmulator.Qcow2.Contents

/-- What is outside the image. A sector is a value, whatever its 512 bytes are. -/
structure Host (D : Type) where
  zero : D
  /-- The backing file and its length in sectors. -/
  backing : Option (Nat × (Nat → D))
  /-- `decompress_buffer`, given the sectors that were read and where the stream starts in the first one. -/
  inflate : List D → Nat → Option (Nat → D)

variable {D : Type}

section Reading

variable (g : Geometry) (host : Host D)

/-- A sector that the image has nothing for. -/
def unallocated (s : Nat) : D :=
  match host.backing with
  | none => host.zero
  | some (total, f) => if s < total then f s else host.zero

def coffset (e : Entry) : Nat := e.toNat % 2 ^ g.csizeShift

def csectors (e : Entry) : Nat := e.toNat / 2 ^ g.csizeShift % 2 ^ (g.clusterBits - 8) + 1

/-- The sectors of a compressed cluster. -/
def stream (file : Nat → D) (e : Entry) : List D := (List.range (csectors g e)).map fun k ↦ file (coffset g e / 512 + k)

/-- The sectors from one on up to the end of what its L1 entry covers, with those before it in its cluster. -/
def sectorsToEnd (sector : Nat) : Nat :=
  (2 ^ (g.l2Bits + g.clusterBits) - sector * 512 % 2 ^ (g.l2Bits + g.clusterBits)) / 512 + sector % g.clusterSectors

/-- The clusters that `qcow2_get_cluster_offset` finds together in an L2 table. -/
def clustersTogether (table : Nat → Entry) (n : Nat) : Nat :=
  if table 0 = 0#64 then countContiguousFreeClusters n table else countContiguousClusters g n table 0 oflagCopied

end Reading

end IDeviceEmulator.Qcow2.Contents
