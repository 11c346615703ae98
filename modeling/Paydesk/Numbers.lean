namespace Paydesk

def twoTo (k : Nat) : Nat := Nat.pow 2 k

def tenTo (k : Nat) : Nat := Nat.pow 10 k

theorem tenTo_pos (k : Nat) : 0 < tenTo k := Nat.pow_pos (by decide)

theorem tenTo_add (j k : Nat) : tenTo (j + k) = tenTo j * tenTo k := Nat.pow_add 10 j k

theorem tenTo_mono {j k : Nat} (h : j ≤ k) : tenTo j ≤ tenTo k :=
  Nat.pow_le_pow_right (by decide) h

/-- The first number that takes more than 16 bits. -/
def limit16 : Nat := 0x10000

def limit31 : Nat := 0x80000000

def limit32 : Nat := 0x100000000

def limit63 : Nat := 0x8000000000000000

def limit64 : Nat := 0x10000000000000000

def total (ns : List Nat) : Nat := ns.foldr (· + ·) 0

@[simp] theorem total_nil : total [] = 0 := rfl

@[simp] theorem total_cons (n : Nat) (ns : List Nat) : total (n :: ns) = n + total ns := rfl

@[simp] theorem total_append (ns ms : List Nat) : total (ns ++ ms) = total ns + total ms := by
  induction ns with
  | nil => simp
  | cons n ns ih => simp [ih, Nat.add_assoc]

theorem total_eq_of_perm {ns ms : List Nat} (h : ns.Perm ms) : total ns = total ms := by
  induction h with
  | nil => rfl
  | cons n _ ih => simp [ih]
  | swap n m ns => simp only [total_cons]; omega
  | trans _ _ ih ih' => exact ih.trans ih'

theorem le_total_of_mem {n : Nat} {ns : List Nat} (h : n ∈ ns) : n ≤ total ns := by
  induction h with
  | head ns => exact Nat.le_add_right _ _
  | tail m _ ih => exact Nat.le_trans ih (Nat.le_add_left _ _)

end Paydesk
