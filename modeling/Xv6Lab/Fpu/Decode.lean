import Xv6Lab.Fpu.Model
import Xv6Lab.Mm.Copy

/-!
user_fpu_instruction against the encodings of RV64GC, which user code is compiled for.
-/

namespace Xv6Lab.Fpu
open List
open Bytes (load)
open Mm (Mach MM copyin userByte rangeAddr WellFormed DistinctTargets)
variable {code : BitVec 32} {inst : Option (BitVec 32)}

inductive Access
  | nothing
  | registers
  | csr  -- the register whose number is in bits 31:20
deriving DecidableEq

/-- A row of the encoding tables: the fixed bits, and what is reserved among the others. -/
structure Encoding (w : Nat) where
  mask : BitVec w
  value : BitVec w
  access : Access := .nothing
  legal : BitVec w → Bool := fun _ => true

def Encoding.fits {w : Nat} (e : Encoding w) (code : BitVec w) : Bool :=
  code &&& e.mask = e.value && e.legal code

section Words

def opcode (op : BitVec 32) : Encoding 32 := { mask := 0x7f, value := op }

def funct3 (op f3 : BitVec 32) : Encoding 32 := { mask := 0x707f, value := f3 <<< 12 ||| op }

def funct7 (op f3 f7 : BitVec 32) : Encoding 32 :=
  { mask := 0xfe00707f, value := f7 <<< 25 ||| f3 <<< 12 ||| op }

def funct6 (op f3 f6 : BitVec 32) : Encoding 32 :=
  { mask := 0xfc00707f, value := f6 <<< 26 ||| f3 <<< 12 ||| op }

def funct5 (f3 f5 : BitVec 32) : Encoding 32 :=
  { mask := 0xf800707f, value := f5 <<< 27 ||| f3 <<< 12 ||| 0x2f }

def rv64i : List (Encoding 32) :=
  [opcode 0x37, opcode 0x17, opcode 0x6f, funct3 0x67 0] ++  -- lui auipc jal jalr
  [0, 1, 4, 5, 6, 7].map (funct3 0x63) ++  -- beq bne blt bge bltu bgeu
  [0, 1, 2, 3, 4, 5, 6].map (funct3 0x03) ++  -- lb lh lw ld lbu lhu lwu
  [0, 1, 2, 3].map (funct3 0x23) ++  -- sb sh sw sd
  [0, 2, 3, 4, 6, 7].map (funct3 0x13) ++  -- addi slti sltiu xori ori andi
  [funct6 0x13 1 0, funct6 0x13 5 0, funct6 0x13 5 0x10] ++  -- slli srli srai
  [funct3 0x1b 0, funct7 0x1b 1 0, funct7 0x1b 5 0, funct7 0x1b 5 0x20] ++  -- addiw and shifts
  [0, 1, 2, 3, 4, 5, 6, 7].map (funct7 0x33 · 0) ++  -- add sll slt sltu xor srl or and
  [0, 5].map (funct7 0x33 · 0x20) ++  -- sub sra
  [0, 1, 5].map (funct7 0x3b · 0) ++  -- addw sllw srlw
  [0, 5].map (funct7 0x3b · 0x20) ++  -- subw sraw
  [0, 1].map (funct3 0x0f) ++  -- fence fence.i
  [{ mask := 0xffffffff, value := 0x00000073 },  -- ecall
   { mask := 0xffffffff, value := 0x00100073 }]  -- ebreak

def rv64m : List (Encoding 32) :=
  [0, 1, 2, 3, 4, 5, 6, 7].map (funct7 0x33 · 1) ++  -- mul mulh mulhsu mulhu div divu rem remu
  [0, 4, 5, 6, 7].map (funct7 0x3b · 1)  -- mulw divw divuw remw remuw

def rv64a : List (Encoding 32) :=
  [2, 3].flatMap fun f3 =>
    { mask := 0xf9f0707f, value := 0x10000000 ||| f3 <<< 12 ||| 0x2f } ::  -- lr
    -- sc and amo: add swap xor or and min max minu maxu
    [0x03, 0x00, 0x01, 0x04, 0x08, 0x0c, 0x10, 0x14, 0x18, 0x1c].map (funct5 f3)

def zicsr : List (Encoding 32) :=
  [1, 2, 3, 5, 6, 7].map fun f3 => { funct3 0x73 f3 with access := .csr }

def rounded (code : BitVec 32) : Bool := code &&& 0x7000 ≠ 0x5000 ∧ code &&& 0x7000 ≠ 0x6000

/-- An instruction of OP-FP that rounds; rs2 may be fixed as well. -/
def rounding (f7 : BitVec 32) : Encoding 32 :=
  { mask := 0xfe00007f, value := f7 <<< 25 ||| 0x53, access := .registers, legal := rounded }

def converting (f7 rs2 : BitVec 32) : Encoding 32 :=
  { mask := 0xfff0007f, value := f7 <<< 25 ||| rs2 <<< 20 ||| 0x53, access := .registers
    legal := rounded }

def moving (f7 f3 : BitVec 32) : Encoding 32 :=
  { mask := 0xfff0707f, value := f7 <<< 25 ||| f3 <<< 12 ||| 0x53, access := .registers }

/-- F for fmt = 0, D for fmt = 1. -/
def rv64fd : List (Encoding 32) :=
  ([0, 1].flatMap fun fmt =>
    [0x07, 0x27].map (fun op => { funct3 op (2 + fmt) with access := .registers }) ++  -- load store
    -- fmadd fmsub fnmsub fnmadd
    [0x43, 0x47, 0x4b, 0x4f].map (fun op =>
      { mask := 0x0600007f, value := fmt <<< 25 ||| op, access := .registers, legal := rounded }) ++
    [0x00, 0x04, 0x08, 0x0c].map (fun f7 => rounding (f7 + fmt)) ++  -- add sub mul div
    [converting (0x2c + fmt) 0] ++  -- fsqrt
    [0, 1, 2].map (fun f3 => { funct7 0x53 f3 (0x10 + fmt) with access := .registers }) ++  -- fsgnj
    [0, 1].map (fun f3 => { funct7 0x53 f3 (0x14 + fmt) with access := .registers }) ++  -- fmin fmax
    [0, 1, 2].map (fun f3 => { funct7 0x53 f3 (0x50 + fmt) with access := .registers }) ++  -- fle flt feq
    [0, 1, 2, 3].map (converting (0x60 + fmt)) ++  -- to w wu l lu
    [0, 1, 2, 3].map (converting (0x68 + fmt)) ++  -- from w wu l lu
    [moving (0x70 + fmt) 0, moving (0x70 + fmt) 1, moving (0x78 + fmt) 0]) ++  -- fmv.x fclass fmv
  [converting 0x20 1, converting 0x21 0]  -- fcvt.s.d fcvt.d.s

def wordTable : List (Encoding 32) := rv64i ++ rv64m ++ rv64a ++ zicsr ++ rv64fd

end Words

section Halves

def quadrant (q f3 : BitVec 16) : Encoding 16 := { mask := 0xe003, value := f3 <<< 13 ||| q }

def Encoding.nonzero (e : Encoding 16) (field : BitVec 16) : Encoding 16 :=
  { e with legal := fun code => e.legal code && code &&& field ≠ 0 }

def halfTable : List (Encoding 16) :=
  [(quadrant 0 0).nonzero 0x1fe0,  -- c.addi4spn
   { quadrant 0 1 with access := .registers },  -- c.fld
   quadrant 0 2, quadrant 0 3,  -- c.lw c.ld
   { quadrant 0 5 with access := .registers },  -- c.fsd
   quadrant 0 6, quadrant 0 7,  -- c.sw c.sd
   quadrant 1 0, (quadrant 1 1).nonzero 0x0f80,  -- c.addi c.addiw
   quadrant 1 2, (quadrant 1 3).nonzero 0x107c] ++  -- c.li, c.lui and c.addi16sp
  [0x8001, 0x8401, 0x8801].map (fun value => { mask := 0xec03, value }) ++  -- c.srli c.srai c.andi
  -- c.sub c.xor c.or c.and c.subw c.addw
  [0x8c01, 0x8c21, 0x8c41, 0x8c61, 0x9c01, 0x9c21].map (fun value => { mask := 0xfc63, value }) ++
  [quadrant 1 5, quadrant 1 6, quadrant 1 7,  -- c.j c.beqz c.bnez
   quadrant 2 0,  -- c.slli
   { quadrant 2 1 with access := .registers },  -- c.fldsp
   (quadrant 2 2).nonzero 0x0f80, (quadrant 2 3).nonzero 0x0f80] ++  -- c.lwsp c.ldsp
  -- c.jr c.jalr c.mv c.add c.ebreak
  [0x8002, 0x9002].map (fun value => Encoding.nonzero { mask := 0xf07f, value } 0x0f80) ++
  [0x8002, 0x9002].map (fun value => Encoding.nonzero { mask := 0xf003, value } 0x007c) ++
  [{ mask := 0xffff, value := 0x9002 },
   { quadrant 2 5 with access := .registers },  -- c.fsdsp
   quadrant 2 6, quadrant 2 7]  -- c.swsp c.sdsp

end Halves

inductive Code
  | half (code : BitVec 16)
  | word (code : BitVec 32)

def Code.size : Code → Nat
  | .half _ => 2
  | .word _ => 4

def Code.toNat : Code → Nat
  | .half code => code.toNat
  | .word code => code.toNat

def Code.byte (c : Code) (i : Nat) : UInt8 := UInt8.ofNat (c.toNat / 256 ^ i)

def Code.defined : Code → Bool
  | .half code => halfTable.any (·.fits code)
  | .word code => wordTable.any (·.fits code)

def fpCsr (code : BitVec 32) : Bool := code >>> 20 == 1 || code >>> 20 == 2 || code >>> 20 == 3

def Code.namesFcsr : Code → Bool
  | .half _ => false
  | .word code => (wordTable.any fun e => e.fits code && e.access = .csr) && fpCsr code

def Code.usesRegisters : Code → Bool
  | .half code => halfTable.any fun e => e.fits code && e.access = .registers
  | .word code => wordTable.any fun e => e.fits code && e.access = .registers

/-- The instruction accesses floating-point registers or fflags, frm or fcsr. -/
def Code.touchesFp (c : Code) : Bool := c.usesRegisters || c.namesFcsr

def Code.compressed : Code → Bool
  | .half _ => true
  | .word _ => false

/-- The word that user_fpu_instruction has in inst, if copyin can read all of it. -/
def instAt (pagetable epc : Nat) : MM (Option (BitVec 32)) := do
  match ← copyin pagetable epc 4 with
  | none => return none
  | some bytes => return some (BitVec.ofNat 32 (load (fun i => bytes.getD i 0) 0 4))

def Fetched (s : Mach) (pagetable pc : Nat) (c : Code) : Prop :=
  ∀ i < c.size, userByte s.mem pagetable (rangeAddr pc i) = some (c.byte i)

/-- The kernel tells that the instruction touches the floating-point state, so that a trap
with the registers off turns them on. -/
structure FirstUse (c : Code) (inst : Option (BitVec 32)) : Prop where
  known : userFpuInstruction inst = c.touchesFp
  enabled : c.touchesFp = true → ∀ hart p, (handle hart p inst).1.fs = .dirty ∧
    (handle hart p inst).2.place = .kernel ∧ (handle hart p inst).2.fpuActive = true

section Tables

theorem wordTable_opcodes : ∀ e ∈ wordTable, e.mask &&& 0x7f = 0x7f ∧
    (e.value &&& 0x7f ∈ fpuOpcodes ↔ e.access = .registers) := by
  decide +kernel

theorem halfTable_quadrants : ∀ e ∈ halfTable, e.mask &&& 3 = 3 ∧ e.value &&& 3 ≠ 3 ∧ e.access ≠ .csr := by
  decide +kernel

theorem fits_low {w : Nat} {e : Encoding w} {code low : BitVec w} (fits : e.fits code = true)
    (fixed : e.mask &&& low = low) : code &&& low = e.value &&& low := by
  have same : code &&& e.mask = e.value := by
    simp only [Encoding.fits, Bool.and_eq_true, decide_eq_true_eq] at fits
    exact fits.1
  rw [← same, BitVec.and_assoc, fixed]

theorem word_known (defined : (Code.word code).defined = true) :
    userFpuInstruction (some code) = (Code.word code).usesRegisters := by
  obtain ⟨e, row, fits⟩ := any_eq_true.mp defined
  obtain ⟨fixed, opcode⟩ := wordTable_opcodes e row
  rw [Bool.eq_iff_iff]
  simp only [userFpuInstruction, decide_eq_true_eq, Code.usesRegisters, any_eq_true,
    Bool.and_eq_true]
  constructor
  · intro known
    rw [fits_low fits fixed] at known
    exact ⟨e, row, fits, opcode.mp known⟩
  · rintro ⟨e', row', fits', registers⟩
    obtain ⟨fixed', opcode'⟩ := wordTable_opcodes e' row'
    rw [fits_low fits' fixed']
    exact opcode'.mpr registers

theorem half_unknown {code : BitVec 16} {inst : BitVec 32} (defined : (Code.half code).defined = true)
    (low : inst.toNat % 65536 = code.toNat) : userFpuInstruction (some inst) = false := by
  obtain ⟨e, row, fits⟩ := any_eq_true.mp defined
  obtain ⟨fixed, other, -⟩ := halfTable_quadrants e row
  have quarter : code.toNat % 4 ≠ 3 := by
    rw [← fits_low fits fixed] at other
    intro three
    refine other (BitVec.eq_of_toNat_eq ?_)
    rw [BitVec.toNat_and]
    exact (Nat.and_two_pow_sub_one_eq_mod code.toNat 2).trans three
  have digits : (inst &&& 0x7f).toNat = inst.toNat % 128 := by
    rw [BitVec.toNat_and]
    exact Nat.and_two_pow_sub_one_eq_mod inst.toNat 7
  have opcodes : fpuOpcodes.all (fun op => op.toNat % 4 = 3) = true := by decide
  simp only [userFpuInstruction, decide_eq_false_iff_not]
  intro known
  have three := all_eq_true.mp opcodes _ known
  rw [digits, decide_eq_true_eq] at three
  omega

theorem csr_unknown (csr : (Code.word code).namesFcsr = true) :
    (Code.word code).usesRegisters = false := by
  simp only [Code.namesFcsr, Bool.and_eq_true, any_eq_true, decide_eq_true_eq] at csr
  obtain ⟨⟨e, row, fits, access⟩, -⟩ := csr
  obtain ⟨fixed, opcode⟩ := wordTable_opcodes e row
  have defined : (Code.word code).defined = true := any_eq_true.mpr ⟨e, row, fits⟩
  rw [← word_known defined]
  simp only [userFpuInstruction, decide_eq_false_iff_not]
  rw [fits_low fits fixed, opcode, access]
  decide

end Tables

section Fetch
variable {s : Mach} {r pc : Nat} {c : Code}

theorem load_four (bytes : Nat → UInt8) : load bytes 0 4 = (bytes 0).toNat + 256 * ((bytes 1).toNat +
    256 * ((bytes 2).toNat + 256 * (bytes 3).toNat)) := by
  simp only [load, Nat.mul_zero, Nat.add_zero, Nat.zero_add, Nat.reduceAdd]

theorem load_code {bytes : Nat → UInt8} (same : ∀ i < c.size, bytes i = c.byte i) :
    load bytes 0 4 % 256 ^ c.size = c.toNat := by
  have digit : ∀ i < c.size, (bytes i).toNat = c.toNat / 256 ^ i % 256 := by
    intro i inside
    rw [same i inside]
    simp [Code.byte]
  rw [load_four]
  cases c with
  | half code =>
    have small := code.isLt
    have first := digit 0 (show 0 < 2 by decide)
    have second := digit 1 (show 1 < 2 by decide)
    simp only [Code.toNat, Code.size] at *
    omega
  | word code =>
    have small := code.isLt
    have first := digit 0 (show 0 < 4 by decide)
    have second := digit 1 (show 1 < 4 by decide)
    have third := digit 2 (show 2 < 4 by decide)
    have fourth := digit 3 (show 3 < 4 by decide)
    simp only [Code.toNat, Code.size] at *
    omega

theorem instAt_spec (wf : WellFormed s.mem r) (distinct : DistinctTargets s.mem r)
    (fits : pc < 2 ^ 64) (fetched : Fetched s r pc c) :
    ∃ inst, (instAt r pc).run s = .ok (inst, s) ∧ (c.compressed = false → inst.isSome) ∧
      ∀ code, inst = some code → code.toNat % 256 ^ c.size = c.toNat := by
  obtain ⟨result, run, spec⟩ := Mm.copyin_spec_of wf distinct fits 4
  have size : c.size ≤ 4 := by cases c <;> simp [Code.size]
  have read : ∃ inst, (instAt r pc).run s = .ok (inst, s) ∧
      inst = result.map fun bytes => BitVec.ofNat 32 (load (fun i => bytes.getD i 0) 0 4) := by
    refine ⟨_, ?_, rfl⟩
    simp only [instAt, StateT.run_bind, run]
    cases result <;> rfl
  obtain ⟨inst, value, rfl⟩ := read
  refine ⟨_, value, fun long => ?_, fun code found => ?_⟩
  · -- all four bytes of a long instruction are there
    rw [Option.isSome_map, spec.success]
    intro i inside
    rw [fetched i (by cases c with | half code => cases long | word code => exact inside)]
    rfl
  · obtain ⟨bytes, known, same⟩ := Option.map_eq_some_iff.mp found
    have delivered := (spec.bytes bytes known).2
    have digits : ∀ i < c.size, bytes.getD i 0 = c.byte i := by
      intro i inside
      rw [getD_eq_getElem?_getD, delivered i (by omega), fetched i inside]
      rfl
    have limit : load (fun i => bytes.getD i 0) 0 4 < 2 ^ 32 :=
      lt_of_lt_of_eq (Bytes.load_lt _ 0 4) (by norm_num)
    rw [← same, BitVec.toNat_ofNat, Nat.mod_eq_of_lt limit]
    exact load_code digits

end Fetch

theorem known_iff {c : Code} (defined : c.defined = true)
    (long : c.compressed = false → inst.isSome)
    (fetched : ∀ code, inst = some code → code.toNat % 256 ^ c.size = c.toNat) :
    userFpuInstruction inst = c.touchesFp ↔
      (c.touchesFp = true → c.compressed = false ∧ c.namesFcsr = false) := by
  cases c with
  | half code =>
    have unknown : userFpuInstruction inst = false := by
      cases inst with
      | none => rfl
      | some word => exact half_unknown defined (fetched word rfl)
    rw [unknown]
    cases (Code.half code).touchesFp <;> simp [Code.compressed]
  | word code =>
    obtain ⟨word, rfl⟩ := Option.isSome_iff_exists.mp (long rfl)
    have same : word = code := by
      refine BitVec.eq_of_toNat_eq ?_
      have limit : word.toNat < 256 ^ 4 := lt_of_lt_of_eq word.isLt (by norm_num)
      have digits := fetched word rfl
      rwa [Code.size, Nat.mod_eq_of_lt limit] at digits
    subst same
    rw [word_known defined, Code.touchesFp]
    cases csr : (Code.word word).namesFcsr with
    | false => simp [Code.compressed]
    | true => simp [csr_unknown csr]

theorem firstUse_iff_known {c : Code} : FirstUse c inst ↔ userFpuInstruction inst = c.touchesFp := by
  refine ⟨FirstUse.known, fun known => ⟨known, fun touches hart p => ?_⟩⟩
  have found : userFpuInstruction inst = true := known.trans touches
  simp [handle, found, fpuHandleTrap]

/-- A first use is recognised exactly if the instruction is neither compressed nor one for
fflags, frm or fcsr. -/
theorem first_use_recognised_iff (s : Mach) (r pc : Nat) (c : Code) (wf : WellFormed s.mem r)
    (distinct : DistinctTargets s.mem r) (fits : pc < 2 ^ 64) (fetched : Fetched s r pc c)
    (defined : c.defined = true) :
    ∃ inst, (instAt r pc).run s = .ok (inst, s) ∧
      (FirstUse c inst ↔ (c.touchesFp = true → c.compressed = false ∧ c.namesFcsr = false)) := by
  obtain ⟨inst, run, long, digits⟩ := instAt_spec wf distinct fits fetched
  exact ⟨inst, run, firstUse_iff_known.trans (known_iff defined long digits)⟩

theorem fetched_of_bytes {s : Mach} {pc : Nat} {c : Code} {code : List UInt8}
    (bytes : ∀ i < code.length, userByte s.mem 4096 i = code[i]?)
    (holds : pc < 2 ^ 32 ∧ ∀ i < c.size, code[pc + i]? = some (c.byte i)) : Fetched s 4096 pc c := by
  intro i inside
  have found := holds.2 i inside
  have few : c.size ≤ 4 := by cases c <;> simp [Code.size]
  rw [Mm.rangeAddr_lt (by omega), bytes (pc + i) (List.getElem?_eq_some_iff.mp found).1, found]

theorem first_use_recognised_fadd : ∃ s : Mach, Fetched s 4096 0 (.word 0x7053) ∧
    ∃ inst, (instAt 4096 0).run s = .ok (inst, s) ∧ (FirstUse (.word 0x7053) inst ↔
      ((Code.word 0x7053).touchesFp = true →
        (Code.word 0x7053).compressed = false ∧ (Code.word 0x7053).namesFcsr = false)) := by
  obtain ⟨s, wf, distinct, bytes, -, -⟩ := Mm.small_user [0x53, 0x70, 0, 0] (by decide)
  have fetched : Fetched s 4096 0 (.word 0x7053) := fetched_of_bytes bytes (by decide)
  exact ⟨s, fetched, first_use_recognised_iff s 4096 0 _ wf distinct (by decide) fetched (by decide +kernel)⟩

/-- A page with frcsr a0 at its start and c.fld f8, 0(x8) at its end. -/
def codePage : List UInt8 := [0x73, 0x25, 0x30, 0] ++ (List.replicate 4090 0 ++ [0, 0x20])

/-- Two programs with one page: frcsr a0 at its start, and c.fld f8, 0(x8) in its last two
bytes. With the registers off, either is killed. -/
theorem first_use_missed : ∃ s : Mach, WellFormed s.mem 4096 ∧ DistinctTargets s.mem 4096 ∧
    userByte s.mem 4096 4096 = none ∧
    ∀ c ∈ [(0, Code.word 0x00302573), (4094, Code.half 0x2000)], Fetched s 4096 c.1 c.2 ∧
      c.2.defined = true ∧ c.2.touchesFp = true ∧
      ∃ inst, (instAt 4096 c.1).run s = .ok (inst, s) ∧ userFpuInstruction inst = false ∧
        ∀ hart p, (handle hart p inst).2.place = .killed := by
  obtain ⟨s, wf, distinct, bytes, -, above⟩ := Mm.small_user codePage (by decide +kernel)
  refine ⟨s, wf, distinct, above 4096 (Nat.le_refl _), fun c member => ?_⟩
  have both : ∀ c ∈ [(0, Code.word 0x00302573), (4094, Code.half 0x2000)],
      (c.1 < 2 ^ 32 ∧ ∀ i < c.2.size, codePage[c.1 + i]? = some (c.2.byte i)) ∧ c.2.defined = true ∧
        c.2.touchesFp = true ∧ ¬(c.2.compressed = false ∧ c.2.namesFcsr = false) := by decide +kernel
  obtain ⟨holds, defined, touches, special⟩ := both c member
  have fetched : Fetched s 4096 c.1 c.2 := fetched_of_bytes bytes holds
  obtain ⟨inst, run, long, digits⟩ := instAt_spec wf distinct (holds.1.trans (by decide)) fetched
  have unknown : userFpuInstruction inst = false := by
    by_contra known
    rw [Bool.not_eq_false, ← touches] at known
    exact special ((known_iff defined long digits).mp known touches)
  exact ⟨fetched, defined, touches, inst, run, unknown, fun hart p => by simp [handle, unknown]⟩

end Xv6Lab.Fpu
