/-
  LaneScript.Image.Pack — an image as one buffer.

  Every section is cut or filled with zeros to the size that the synced header gives
  it, then padded to a multiple of 16. The hash covers the whole buffer with zeros in
  place of the hash itself. Slots of callables are never stored.
-/
import LaneScript.Image.Digest
import LaneScript.Image.Layout

namespace LaneScript

/-- The hash of a buffer, whatever is stored in its hash field; `none` for one that ends before that field does. -/
def contentHash? (buffer : Bytes) : Option UInt64 :=
  if buffer.length < Header.fieldBytes then none
  else some (Digest.short (buffer.take Header.countBytes ++ List.replicate 8 0 ++ buffer.drop Header.fieldBytes))

/-- Stores the hash of a buffer in it; a buffer too short for a hash is left alone. -/
def restamp (buffer : Bytes) : Bytes :=
  match contentHash? buffer with
  | none => buffer
  | some hash => buffer.take Header.countBytes ++ Bytes.le 8 hash.toNat ++ buffer.drop Header.fieldBytes

def pad16 (bytes : Bytes) : Bytes := bytes ++ List.replicate ((16 - bytes.length % 16) % 16) 0

def ExternalFn.encode (f : ExternalFn) : Bytes :=
  List.replicate 8 0 ++ Bytes.le 2 f.sources.toNat ++ Bytes.le 2 f.dests.toNat ++ Bytes.le 4 f.registers.toNat

namespace Image

def wordBytes (ws : List UInt16) : Bytes := ws.flatMap fun w => Bytes.le 2 w.toNat

def contents (m : Image) : Section → Bytes
  | .code => m.code
  | .constants => wordBytes m.constants
  | .inputs => wordBytes m.inputs
  | .inputOffsets => wordBytes m.inputOffsets
  | .outputDatasets => wordBytes m.outputDatasets
  | .outputTypes => m.outputTypes
  | .outputFields => wordBytes m.outputFields
  | .functions => m.functions.flatMap ExternalFn.encode

def body (m : Image) : Bytes :=
  Section.all.flatMap fun s => pad16 (Bytes.fit (Section.size m.synced s).toNat (m.contents s))

def pack (m : Image) : Bytes :=
  restamp (m.synced.encode ++ List.replicate (Header.totalBytes - Header.countBytes) 0 ++ m.body)

end Image

end LaneScript
