import CTalk.Decimal

/-! Dotted-quad texts of IPv4 addresses. -/

set_option autoImplicit false

namespace Ipv4

structure Address where
  a : UInt8
  b : UInt8
  c : UInt8
  d : UInt8
  deriving DecidableEq, Repr

def dot : UInt8 := 46

def Address.octets (x : Address) : List (List UInt8) :=
  [Decimal.text x.a.toNat,Decimal.text x.b.toNat,Decimal.text x.c.toNat,Decimal.text x.d.toNat]

def Address.text (x : Address) : List UInt8 := [dot].intercalate x.octets

/-- A number below 256 without leading zeros. -/
def octet (cs : List UInt8) : Option UInt8 :=
  if Decimal.value cs < 256 ∧ Decimal.text (Decimal.value cs) = cs then
    some (UInt8.ofNat (Decimal.value cs))
  else none

def parse (s : List UInt8) : Option Address :=
  match s.splitOn dot with
  | [a,b,c,d] => do
    let a ← octet a
    let b ← octet b
    let c ← octet c
    let d ← octet d
    some ⟨a,b,c,d⟩
  | _ => none

theorem octet_eq_some_iff {cs : List UInt8} {o : UInt8} :
    octet cs = some o ↔ cs = Decimal.text o.toNat := by
  have ho : o.toNat < 256 := o.toNat_lt
  constructor
  · intro h
    rw [octet] at h
    split at h
    · rename_i hcs
      cases h
      rw [UInt8.toNat_ofNat',Nat.mod_eq_of_lt hcs.1,hcs.2]
    · cases h
  · intro h
    rw [octet,h,Decimal.value_text,if_pos ⟨ho,rfl⟩,UInt8.ofNat_toNat]

theorem parse_text (x : Address) : parse x.text = some x := by
  have hsplit : x.text.splitOn dot = x.octets := by
    apply List.splitOn_intercalate
    · intro l hl hdot
      have hdigit : Decimal.isDigit dot := by
        simp only [Address.octets,List.mem_cons,List.not_mem_nil,or_false] at hl
        rcases hl with hl | hl | hl | hl
        all_goals exact Decimal.isDigit_of_mem_text _ dot (hl ▸ hdot)
      exact absurd hdigit (by decide)
    · exact List.cons_ne_nil _ _
  have hoctet : ∀ o : UInt8, octet (Decimal.text o.toNat) = some o :=
    fun o => octet_eq_some_iff.mpr rfl
  rw [parse,hsplit]
  simp [Address.octets,hoctet]

/-- The parser accepts exactly the dotted quads. -/
theorem parse_eq_some_iff {s : List UInt8} {x : Address} :
    parse s = some x ↔ s = x.text := by
  constructor
  · intro h
    rw [parse] at h
    split at h
    · rename_i a b c d hsplit
      simp only [Option.bind_eq_bind,Option.bind_eq_some_iff,octet_eq_some_iff] at h
      obtain ⟨oa,ha,ob,hb,oc,hc,od,hd,hx⟩ := h
      cases hx
      rw [Address.text,Address.octets,← ha,← hb,← hc,← hd,← hsplit,
        List.intercalate_splitOn]
    · cases h
  · intro h
    rw [h,parse_text]

theorem parse_eq_none_iff {s : List UInt8} : parse s = none ↔ ∀ x : Address, s ≠ x.text := by
  simp only [Option.eq_none_iff_forall_ne_some,ne_eq,parse_eq_some_iff]

theorem text_octet_length_le (o : UInt8) : (Decimal.text o.toNat).length ≤ 3 := by
  apply Decimal.text_length_le (by decide)
  have ho : o.toNat < 256 := o.toNat_lt
  omega

theorem Address.text_length_le (x : Address) : x.text.length ≤ 15 := by
  have ha := text_octet_length_le x.a
  have hb := text_octet_length_le x.b
  have hc := text_octet_length_le x.c
  have hd := text_octet_length_le x.d
  simp only [Address.text,Address.octets,List.intercalate,List.intersperse,
    List.flatten_cons,List.flatten_nil,List.length_append,List.length_cons,List.length_nil]
  omega

end Ipv4
