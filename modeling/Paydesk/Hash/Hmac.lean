import Paydesk.Hash.Sha256
import Paydesk.Hash.Sha512

namespace Paydesk.Hash

/-- The keyed digest built from a hash function and the size of its blocks. -/
def hmac (hash : Bytes → Bytes) (blockSize : Nat) (key message : Bytes) : Bytes :=
  let key := if blockSize < key.length then hash key else key
  let block := key ++ List.replicate (blockSize - key.length) 0
  hash (block.map (· ^^^ 0x5c) ++ hash (block.map (· ^^^ 0x36) ++ message))

def hmacSha256 (key message : Bytes) : Bytes := hmac sha256 64 key message

def hmacSha512 (key message : Bytes) : Bytes := hmac sha512 128 key message

end Paydesk.Hash
