/-
  THE USER HEAP (`user/umalloc.c`).

  Kernighan and Ritchie's allocator: free blocks in a circular list that is kept in the memory it
  manages.  A block starts with a `Header` of 16 bytes — a pointer of 8 at offset 0, a size of 4 at
  offset 8, counted in units of a header — and pointers to headers move in such units.

  Memory is the BYTES of the process by virtual address.  What the process can touch, and what
  `sbrk` answers, is the system's (`Os`); touching any other byte is a fault.  `got` is a ghost that
  nothing reads: the memory `sbrk` has handed out.  The two search loops run on a fuel.
-/
import Xv6.Params
import Xv6.Lib.Chain
import Xv6.Lib.Extents

namespace Xv6.Umalloc

open Bytes

/-- How a call ends other than by returning: a page fault, a loop that has not ended, or a system
    call that does not come back. -/
inductive Stop
  | fault
  | fuel
  | kernel
deriving DecidableEq, Repr

/-- The system under the process: the bytes that can be read and written, and `sbrk(n)` with the
    pointer it returns. -/
structure Os (σ : Type) where
  mapped : σ → Nat → Bool
  sbrk : σ → Int → Except Stop (Nat × σ)

/-- The process: its memory, the variable `freep`, and the system's state. -/
structure Proc (σ : Type) where
  mem : Bytes
  freep : Nat
  os : σ
  got : List Extent

/-- `(char *)-1`. -/
def FAILED : Nat := 18446744073709551615

/-- `p + n` for a `Header *p`. -/
def forward (p n : Nat) : Nat := (p + 16 * n) % 18446744073709551616

/-- `(Header *)ap - 1`. -/
def back (ap : Nat) : Nat := (ap + 18446744073709551600) % 18446744073709551616

/-- `!(bp > p && bp < p->s.ptr)` is false, or the `if` of the loop's body breaks: `q` is `p->s.ptr`. -/
def stops (bp p q : Nat) : Bool :=
  decide (p < bp ∧ bp < q) || decide (q ≤ p ∧ (p < bp ∨ bp < q))

/-- `nunits`: the bytes in units of a header, and one for the header; a `uint`. -/
def unitsFor (nbytes : Nat) : Nat := ((nbytes + 15) / 16 + 1) % 4294967296

/-! ## The fields of a header -/

/-- `h->s.ptr`. -/
def ptrAt (m : Bytes) (h : Nat) : Nat := le64 m h

/-- `h->s.size`. -/
def sizeAt (m : Bytes) (h : Nat) : Nat := le32 m (h + 8)

namespace Proc

variable {σ : Type} (O : Os σ) (s : Proc σ)

/-- Can all of the `n` bytes at `a` be touched? -/
def can (a n : Nat) : Bool := (List.range n).all fun i => O.mapped s.os (a + i)

/-- Read `h->s.ptr`. -/
def ptr (h : Nat) : Except Stop Nat := if s.can O h 8 then .ok (ptrAt s.mem h) else .error .fault

/-- Read `h->s.size`. -/
def size (h : Nat) : Except Stop Nat :=
  if s.can O (h + 8) 4 then .ok (sizeAt s.mem h) else .error .fault

/-- `h->s.ptr = v`. -/
def setPtr (h v : Nat) : Except Stop (Proc σ) :=
  if s.can O h 8 then .ok { s with mem := put64 s.mem h v } else .error .fault

/-- `h->s.size = v`. -/
def setSize (h v : Nat) : Except Stop (Proc σ) :=
  if s.can O (h + 8) 4 then .ok { s with mem := put32 s.mem (h + 8) v } else .error .fault

/-- The system call; memory that it maps reads as zeros. -/
def sbrk (n : Int) : Except Stop (Nat × Proc σ) := do
  let r ← O.sbrk s.os n
  pure (r.1, { s with
    os := r.2
    mem := fun x => if O.mapped r.2 x && !O.mapped s.os x then 0 else s.mem x
    got := if r.1 = FAILED then s.got else (r.1, n.toNat) :: s.got })

/-! ## `free` -/

/-- The two statements `if (x + x->s.size == y) { x->s.size += y->s.size; x->s.ptr = y->s.ptr; } else
    x->s.ptr = y;` where `y` is an expression that is evaluated each time. -/
def join (x : Nat) (y : Proc σ → Except Stop Nat) : Except Stop (Proc σ) := do
  let n ← s.size O x
  let q ← y s
  if forward x n = q then do
    let k ← s.size O q
    let s ← s.setSize O x ((n + k) % 4294967296)
    let q ← y s
    let r ← s.ptr O q
    s.setPtr O x r
  else s.setPtr O x q

/-- `free(ap)`. -/
def free (fuel ap : Nat) : Except Stop (Proc σ) := do
  let bp := back ap
  let p ← Chain.walk (s.ptr O) (stops bp) .fuel fuel s.freep
  let s ← s.join O bp fun s => s.ptr O p
  let s ← s.join O p fun _ => pure bp
  pure { s with freep := p }

/-! ## `malloc` -/

/-- `morecore(nu)`; 0 is a null pointer. -/
def morecore (fuel nu : Nat) : Except Stop (Nat × Proc σ) := do
  let nu := if nu < 4096 then 4096 else nu
  let r ← s.sbrk O (toInt (nu * 16))
  if r.1 = FAILED then pure (0, r.2)
  else do
    let s ← r.2.setSize O r.1 nu
    let s ← s.free O fuel (forward r.1 1)
    pure (s.freep, s)

/-- The block `p` behind `prevp` is big enough: hand out its tail, or all of it. -/
def take (nunits prevp p : Nat) : Except Stop (Nat × Proc σ) := do
  let n ← s.size O p
  if n = nunits then do
    let q ← s.ptr O p
    let s ← s.setPtr O prevp q
    pure (forward p 1, { s with freep := prevp })
  else do
    let s ← s.setSize O p (n - nunits)
    let k ← s.size O p
    let q := forward p k
    let s ← s.setSize O q nunits
    pure (forward q 1, { s with freep := prevp })

/-- `malloc`'s loop, at `p` behind `prevp`. -/
def mallocFrom (nunits : Nat) : Nat → Nat → Nat → Proc σ → Except Stop (Nat × Proc σ)
  | 0, _, _, _ => .error .fuel
  | fuel + 1, prevp, p, s => do
    let n ← s.size O p
    if nunits ≤ n then s.take O nunits prevp p
    else if p = s.freep then do
      let r ← s.morecore O fuel nunits
      if r.1 = 0 then pure (0, r.2)
      else do
        let q ← r.2.ptr O r.1
        mallocFrom nunits fuel r.1 q r.2
    else do
      let q ← s.ptr O p
      mallocFrom nunits fuel p q s

/-- `if ((prevp = freep) == 0)`: the list starts as `base` alone. -/
def initList (base : Nat) : Except Stop (Proc σ) :=
  if s.freep = 0 then do
    let s ← { s with freep := base }.setPtr O base base
    s.setSize O base 0
  else pure s

/-- `malloc(nbytes)`; `base` is the address of the variable of that name. -/
def malloc (base fuel nbytes : Nat) : Except Stop (Nat × Proc σ) := do
  let s ← s.initList O base
  let p ← s.ptr O s.freep
  mallocFrom O (unitsFor nbytes) fuel s.freep p s

end Proc

end Xv6.Umalloc
