import Paydesk.Numbers

/-!
Choices and orders drawn from words of 64 random bits. A source that is used up
goes on with zeros.
-/

namespace Paydesk

abbrev Words := List Nat

namespace Words

def next : Words → Nat × Words
  | [] => (0, [])
  | w :: ws => (w, ws)

/-- The highest low half of a product that is taken. Below it every index comes
from the same number of words. -/
def zone (n : Nat) : Nat := n * twoTo (31 - n.log2) - 1

/-- Draws an index below `n` from the low halves of words: the high half of
such a half times `n`. A word whose product has a low half beyond the zone is
passed over. -/
def index (n : Nat) : Words → Nat × Words
  | [] => (0, [])
  | w :: ws =>
      let product := w % limit32 * n
      if product % limit32 ≤ zone n then (product / limit32, ws) else index n ws

/-- True for the lower half of all words. -/
def flip (ws : Words) : Bool × Words :=
  let (w, ws) := ws.next
  (w < limit63, ws)

/-- An item of a list. Nothing is drawn for an empty one. -/
def choose? {α : Type} (items : List α) (ws : Words) : Option α × Words :=
  if items.isEmpty then (none, ws)
  else
    let (i, ws) := ws.index items.length
    (items[i]?, ws)

/-- Swaps the item at each place up to the given one, from the last to the
second, with one drawn from the places up to it. -/
def shuffleUpTo {α : Type} : Nat → Array α → Words → Array α × Words
  | 0, items, ws => (items, ws)
  | i + 1, items, ws =>
      let (j, ws) := ws.index (i + 2)
      shuffleUpTo i (items.swapIfInBounds (i + 1) j) ws

def shuffle {α : Type} (items : List α) (ws : Words) : List α × Words :=
  let (items', ws) := shuffleUpTo (items.length - 1) items.toArray ws
  (items'.toList, ws)

end Words

end Paydesk
