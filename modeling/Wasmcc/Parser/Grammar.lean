import Wasmcc.Basis.Grammar
import Wasmcc.Basis.Groups
import Wasmcc.Core.Ast

/-!
# The grammar of the sections

What the contents of each kind of section look like, as languages of bytes and without reference to
any reader. The grammar is that of the binary format on the part that the parser supports, with the
two liberties it takes: the initialiser of a global has no `end`, and a flag may be any byte.
Indices and types are not checked against each other here, and a number is any sequence of at most
as many groups as its type needs.

Every language is prefix-free but that of a custom section, whose contents are any bytes
(`prefixFree_contents`). So where a section starts, its id and the grammar alone decide where it
ends.
-/

open Basis

namespace Wasmcc

namespace Grammar

/-! ### Numbers, vectors and names -/

/-- A number in at most `groups` groups. -/
def leb (groups : ℕ) : Language Byte := {u | Groups u ∧ u.length ≤ groups}

/-- The number `n` as a `uint32_t`, in at most five groups. What does not fit is cut off. -/
def u32 (n : ℕ) : Language Byte := {u | u ∈ leb 5 ∧ unsignedValue u % 2 ^ 32 = n}

/-- This many bytes. -/
def bytes (n : ℕ) : Language Byte := {u | u.length = n}

/-- A count, and that many elements. -/
def vec (L : Language Byte) : Language Byte := ⨆ n, u32 n * L ^ n

def name : Language Byte := ⨆ n, u32 n * bytes n

/-! ### Types -/

def valType : Language Byte := {u | ∃ vt : ValType, vt ≠ .v128 ∧ u = [vt.byte]}

def signature : Language Byte := {[0x60#8]} * (vec valType * vec valType)

/-- A flag, the minimum, and the maximum if the flag says so. -/
def limits : Language Byte := ⨆ flag : Byte, {[flag]} * if flag ≠ 0 then leb 5 * leb 5 else leb 5

def tableType : Language Byte := valType * limits

def globalType : Language Byte := valType * bytes 1

/-! ### Entries -/

/-- What follows the kind of an import. -/
def importDescription (kind : Byte) : Language Byte :=
  if kind = 0x00#8 then leb 5
  else if kind = 0x01#8 then tableType
  else if kind = 0x02#8 then limits
  else if kind = 0x03#8 then globalType
  else 0

def importEntry : Language Byte := name * (name * ⨆ kind, {[kind]} * importDescription kind)

/-- What follows the opcode of a constant expression. -/
def constant (opcode : Byte) : Language Byte :=
  if opcode = 0x41#8 then leb 5
  else if opcode = 0x42#8 then leb 10
  else if opcode = 0x43#8 then bytes 4
  else if opcode = 0x44#8 then bytes 8
  else 0

def globalEntry : Language Byte := globalType * ⨆ opcode, {[opcode]} * constant opcode

/-- An export under this name. -/
def exportNamed (s : Name) : Language Byte :=
  u32 s.length * {s} * ⨆ kind : Byte, {[kind]} * if kind.toNat ≤ 3 then leb 5 else 0

def exportEntry : Language Byte := ⨆ s, exportNamed s

/-! ### Code -/

/-- What follows the opcode of an instruction. -/
def immediate (opcode : Byte) : Language Byte :=
  if opcode ∈ [0x20#8, 0x21#8, 0x41#8] then leb 5
  else if opcode ∈ [0x04#8, 0x05#8, 0x0F#8, 0x6A#8] then 1
  else 0

def op : Language Byte := ⨆ opcode, {[opcode]} * immediate opcode

def expression : Language Byte := KStar.kstar op * {[0x0B#8]}

/-- A run of locals of one type. -/
def localGroup : Language Byte := leb 5 * valType

/-- A size, and that many bytes of locals and body. -/
def codeEntry : Language Byte := ⨆ n, u32 n * (vec localGroup * expression ⊓ bytes n)

/-! ### Sections -/

/-- The contents of a section with this id. -/
def contents (id : Byte) : Language Byte :=
  if id = 0x00#8 then ⊤
  else if id = 0x01#8 then vec signature
  else if id = 0x02#8 then vec importEntry
  else if id = 0x03#8 then vec (leb 5)
  else if id = 0x04#8 then vec tableType
  else if id = 0x05#8 then vec limits
  else if id = 0x06#8 then vec globalEntry
  else if id = 0x07#8 then vec exportEntry
  else if id = 0x08#8 then leb 5
  else if id = 0x0A#8 then vec codeEntry
  else 0

/-- A section with its header. The size field is binding for custom sections only. -/
def oneSection : Language Byte :=
  ⨆ id, {[id]} * ⨆ size, u32 size * if id = 0x00#8 then bytes size else contents id

/-! ### Where a word ends -/

theorem prefixFree_leb (n : ℕ) : PrefixFree (leb n) := by
  intro u v r s hu hv heq
  obtain ⟨hu, -⟩ := hu
  obtain ⟨hv, -⟩ := hv
  -- both go on as long as their bytes say so
  induction hu generalizing v with
  | last hb =>
    cases hv with
    | last hb' =>
      obtain ⟨rfl, -⟩ := List.cons.inj heq
      rfl
    | more hb' _ =>
      obtain ⟨rfl, -⟩ := List.cons.inj heq
      exact absurd hb' hb
  | more hb _ ih =>
    cases hv with
    | last hb' =>
      obtain ⟨rfl, -⟩ := List.cons.inj heq
      exact absurd hb hb'
    | more hb' hbs =>
      obtain ⟨rfl, htail⟩ := List.cons.inj heq
      rw [ih htail hbs]

theorem determines_u32 : Determines u32 := by
  rintro i j u v r s ⟨hu, rfl⟩ ⟨hv, rfl⟩ heq
  obtain rfl := prefixFree_leb 5 hu hv heq
  exact ⟨rfl, rfl⟩

theorem prefixFree_bytes (n : ℕ) : PrefixFree (bytes n) := .of_length fun _ hu => hu

theorem prefixFree_vec {L : Language Byte} (h : PrefixFree L) : PrefixFree (vec L) :=
  .iSup_mul determines_u32 h.pow

theorem prefixFree_name : PrefixFree name := .iSup_mul determines_u32 prefixFree_bytes

/-- One byte of several, and what it says is to follow. -/
theorem prefixFree_tagged {L : Byte → Language Byte} (h : ∀ b, PrefixFree (L b)) :
    PrefixFree (⨆ b, {[b]} * L b) :=
  .iSup_mul determines_singleton h

theorem prefixFree_valType : PrefixFree valType :=
  .of_length (n := 1) fun _ ⟨_, _, hu⟩ => congrArg List.length hu

theorem prefixFree_ite {c : Prop} [Decidable c] {L M : Language Byte} (hL : PrefixFree L)
    (hM : PrefixFree M) : PrefixFree (if c then L else M) := by
  split
  · exact hL
  · exact hM

theorem prefixFree_signature : PrefixFree signature :=
  (PrefixFree.of_length fun _ hu => congrArg List.length hu).mul
    ((prefixFree_vec prefixFree_valType).mul (prefixFree_vec prefixFree_valType))

theorem prefixFree_limits : PrefixFree limits :=
  prefixFree_tagged fun _ =>
    prefixFree_ite ((prefixFree_leb 5).mul (prefixFree_leb 5)) (prefixFree_leb 5)

theorem prefixFree_tableType : PrefixFree tableType := prefixFree_valType.mul prefixFree_limits

theorem prefixFree_globalType : PrefixFree globalType := prefixFree_valType.mul (prefixFree_bytes 1)

theorem prefixFree_importEntry : PrefixFree importEntry := by
  refine prefixFree_name.mul (prefixFree_name.mul (prefixFree_tagged fun kind => ?_))
  exact prefixFree_ite (prefixFree_leb 5) (prefixFree_ite prefixFree_tableType
    (prefixFree_ite prefixFree_limits (prefixFree_ite prefixFree_globalType .zero)))

theorem prefixFree_globalEntry : PrefixFree globalEntry := by
  refine prefixFree_globalType.mul (prefixFree_tagged fun opcode => ?_)
  exact prefixFree_ite (prefixFree_leb 5) (prefixFree_ite (prefixFree_leb 10)
    (prefixFree_ite (prefixFree_bytes 4) (prefixFree_ite (prefixFree_bytes 8) .zero)))

theorem determines_nameOf : Determines fun s : Name => u32 s.length * {s} := by
  intro s s' w w' r r' hw hw' heq
  obtain ⟨u, hu, _, rfl, rfl⟩ := Language.mem_mul.mp hw
  obtain ⟨u', hu', _, rfl, rfl⟩ := Language.mem_mul.mp hw'
  rw [List.append_assoc, List.append_assoc] at heq
  obtain ⟨rfl, hlen⟩ := determines_u32 hu hu' heq
  obtain ⟨rfl, -⟩ := List.append_inj (List.append_cancel_left heq) hlen
  exact ⟨rfl, rfl⟩

theorem determines_exportNamed : Determines exportNamed :=
  determines_nameOf.mul fun _ =>
    prefixFree_tagged fun _ => prefixFree_ite (prefixFree_leb 5) .zero

theorem prefixFree_exportEntry : PrefixFree exportEntry := determines_exportNamed.iSup

theorem prefixFree_codeEntry : PrefixFree codeEntry :=
  .iSup_mul determines_u32 fun n =>
    (prefixFree_bytes n).mono fun _ hu => (Language.mem_inf.mp hu).2

/-- **Where a section ends** is decided by the grammar, but for custom sections. -/
theorem prefixFree_contents {id : Byte} (hid : id ≠ 0x00#8) : PrefixFree (contents id) := by
  unfold contents
  rw [if_neg hid]
  refine prefixFree_ite (prefixFree_vec prefixFree_signature) ?_
  refine prefixFree_ite (prefixFree_vec prefixFree_importEntry) ?_
  refine prefixFree_ite (prefixFree_vec (prefixFree_leb 5)) ?_
  refine prefixFree_ite (prefixFree_vec prefixFree_tableType) ?_
  refine prefixFree_ite (prefixFree_vec prefixFree_limits) ?_
  refine prefixFree_ite (prefixFree_vec prefixFree_globalEntry) ?_
  refine prefixFree_ite (prefixFree_vec prefixFree_exportEntry) ?_
  refine prefixFree_ite (prefixFree_leb 5) ?_
  exact prefixFree_ite (prefixFree_vec prefixFree_codeEntry) .zero

/-- **Where a section ends**, its header included. -/
theorem prefixFree_oneSection : PrefixFree oneSection := by
  refine prefixFree_tagged fun id => .iSup_mul determines_u32 fun size => ?_
  split
  next => exact prefixFree_bytes size
  next hid => exact prefixFree_contents hid

end Grammar

end Wasmcc
