import Orchids.Engine.Context
import Orchids.Ovm.Value

/-!
# Values of synchronization variables (`rule_compiler.c`)

`datahash_pjw` and `objhash_rule_instance` over the values of `Val`, on a machine with 64-bit
words and the low byte first.
-/

namespace Orchids

/-- The bytes of a word of `n` bytes. -/
def bytesOf (n : Nat) (v : BitVec (8 * n)) : List (BitVec 8) :=
  (List.range n).map fun i => v.extractLsb' (8 * i) 8

/-- `datahash_pjw`; the bytes are read as signed. -/
def datahashPjw (h : BitVec 64) (bytes : List (BitVec 8)) : BitVec 64 :=
  bytes.foldl (fun h b =>
    let h := (h <<< 4) + b.signExtend 64
    let g := h &&& 0xF0000000#64
    if g ≠ 0 then (h ^^^ (g >>> 28)) ^^^ g else h) h

namespace Val

/-- `issdl_get_data` with `issdl_get_data_len` -/
def data : Val → List (BitVec 8)
  | null => []
  | int v => bytesOf 8 v

/-- One turn of the loop of `objhash_rule_instance`: the variable, its type and its data. -/
def hashVar (h : BitVec 64) (x : Nat) (v : Val) : BitVec 64 :=
  datahashPjw (datahashPjw (datahashPjw h (bytesOf 4 (.ofNat 32 x))) (bytesOf 4 (.ofInt 32 v.type)))
    v.data

end Val

/-- Locks are taken on variables that are set; for a `NULL` pointer the values here are arbitrary. -/
instance : SyncValue Val where
  hash key := (key.foldl (fun h p => Val.hashVar h p.1 (p.2.getD .null)) 0).toNat
  cmp v w := (v.getD .null).cmp (w.getD .null)

end Orchids
