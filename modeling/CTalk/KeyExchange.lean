import Mathlib.Tactic.NormNum.Prime
import CTalk.Network

/-! The key exchange between the two ends of a connection: the key each end derives from
what the other transmitted, what a hostile peer can make the derivation do, and what the
cipher hides under an honestly derived key. -/

set_option autoImplicit false

namespace CTalk
open ByteStream

def publicNumber (secretKey : UInt64) : Nat := 863 ^ secretKey.toNat % 101

theorem publicNumber_lt (secretKey : UInt64) : publicNumber secretKey < 101 :=
  Nat.mod_lt _ (by omega)

theorem publicNumber_pos (secretKey : UInt64) : 0 < publicNumber secretKey := by
  have hprime : Nat.Prime 101 := by norm_num
  apply Nat.pos_of_ne_zero
  intro h
  have hdvd : 101 ∣ 863 := hprime.dvd_of_dvd_pow (Nat.dvd_of_mod_eq_zero h)
  omega

theorem publicNumber_zero : publicNumber 0 = 1 := by decide

theorem publicKey_publicParams (secretKey : UInt64) :
    ∃ v, publicKey publicParams.1 publicParams.2 secretKey = .ok v ∧
      v.toNat = publicNumber secretKey :=
  modExp_toNat_of_two_le (by decide) (by decide) 863 secretKey

def Transmits (p g secretKey : UInt64) (wire : List UInt8) : Prop :=
  ∃ sent, sendPublicKey p g secretKey sent = ⟨wire,.ok 1⟩

theorem transmits_iff (p g secretKey : UInt64) (wire : List UInt8) :
    Transmits p g secretKey wire ↔ wire = Decimal.text (publicNumber secretKey) := by
  obtain ⟨v,hv,hval⟩ := publicKey_publicParams secretKey
  have hsend : ∀ sent, sendPublicKey p g secretKey sent =
      sendMessage (bufferPublicKey v) sent := by
    intro sent
    simp only [sendPublicKey]
    rw [hv]
  have htext := bufferPublicKey_text v
  constructor
  · intro h
    obtain ⟨sent,hs⟩ := h
    rw [hsend] at hs
    cases sent with
    | error => simp [sendMessage] at hs
    | accepted n =>
      simp only [sendMessage,Buffer.strlen,htext,Sent.mk.injEq] at hs
      obtain ⟨hwire,hres⟩ := hs
      split at hres
      · simp at hres
      · rename_i hfull
        rw [← hwire,List.take_of_length_le (by omega),hval]
  · intro h
    refine ⟨.accepted (bufferPublicKey v).strlen,?_⟩
    simp [hsend,sendMessage,Buffer.strlen,htext,h,hval]

theorem derivedKey (p secretKey : UInt64) {n : Nat} (hpos : 0 < n) (hlt : n < 101) :
    ∃ k, generatePrivateKey (recv (Decimal.text n)) p secretKey = .ok k ∧
      k.toNat = if secretKey = 0 then 1 else p.toNat ^ secretKey.toNat % n := by
  have hn : (UInt64.ofNat n).toNat = n := by
    simp only [UInt64.toNat_ofNat']
    omega
  have hgen := generatePrivateKey_recv_text (UInt64.ofNat n) p secretKey
  rw [hn] at hgen
  rw [hgen]
  by_cases hs : secretKey = 0
  · subst hs
    exact ⟨1,modExp_zero (ne_zero_of_toNat_pos (by omega)) p,by simp⟩
  · have hspos : 0 < secretKey.toNat := by
      apply Nat.pos_of_ne_zero
      intro h
      exact hs (UInt64.toNat_inj.mp h)
    have hmod : 0 < (UInt64.ofNat n).toNat := by omega
    obtain ⟨k,hk,hval⟩ := modExp_toNat hmod (by omega) p hspos
    exact ⟨k,hk,by rw [hval,hn,if_neg hs]⟩

/-- Each end derives a key from the text the other transmitted, and both keys are
g^(a*b) mod p. -/
def Agreement (p g a b : UInt64) : Prop :=
  ∀ wireA wireB, Transmits p g a wireA → Transmits p g b wireB →
    ∃ k, generatePrivateKey (recv wireA) p b = .ok k ∧
      generatePrivateKey (recv wireB) p a = .ok k ∧
      k.toNat = g.toNat ^ (a.toNat * b.toNat) % p.toNat

theorem agreement_iff_remainders (p g a b : UInt64) :
    Agreement p g a b ↔
      (if b = 0 then 1 else p.toNat ^ b.toNat % publicNumber a) =
        g.toNat ^ (a.toNat * b.toNat) % p.toNat ∧
      (if a = 0 then 1 else p.toNat ^ a.toNat % publicNumber b) =
        g.toNat ^ (a.toNat * b.toNat) % p.toNat := by
  obtain ⟨ka,hka,hva⟩ := derivedKey p b (publicNumber_pos a) (publicNumber_lt a)
  obtain ⟨kb,hkb,hvb⟩ := derivedKey p a (publicNumber_pos b) (publicNumber_lt b)
  simp only [Agreement,transmits_iff]
  rw [← hva,← hvb]
  constructor
  · intro h
    obtain ⟨k,h1,h2,h3⟩ := h _ _ rfl rfl
    rw [hka] at h1
    rw [hkb] at h2
    cases h1
    cases h2
    exact ⟨h3,h3⟩
  · intro h wireA wireB hA hB
    subst hA hB
    have hkk : kb = ka := UInt64.toNat_inj.mp (h.2.trans h.1.symm)
    exact ⟨ka,hka,hkk ▸ hkb,h.1⟩

theorem agreement_of_secrets_zero {p : UInt64} (hp : 2 ≤ p.toNat) (g : UInt64) :
    Agreement p g 0 0 := by
  have hone : 1 % p.toNat = 1 := Nat.mod_eq_of_lt hp
  rw [agreement_iff_remainders]
  simp [hone]

theorem no_agreement_of_one_zero {p : UInt64} (hp : 2 ≤ p.toNat) (g : UInt64) {a b : UInt64}
    (hone : ¬ (a = 0 ↔ b = 0)) : ¬ Agreement p g a b := by
  have hmod : 1 % p.toNat = 1 := Nat.mod_eq_of_lt hp
  rw [agreement_iff_remainders]
  by_cases ha : a = 0
  · have hb : b ≠ 0 := fun hb => hone (iff_of_true ha hb)
    subst ha
    simp [hb,publicNumber_zero,Nat.mod_one,hmod]
  · have hb : b = 0 := by
      by_contra hb
      exact hone (iff_of_false ha hb)
    subst hb
    simp [ha,publicNumber_zero,Nat.mod_one,hmod]

theorem exists_prime_dvd_remainder {m n : Nat} (hm : 0 < m) (hn : n ≠ 0) :
    ∃ q, q.Prime ∧ q ≤ max 2 m ∧ q ∣ q ^ n % m := by
  by_cases hone : m = 1
  · exact ⟨2,Nat.prime_two,Nat.le_max_left _ _,by simp [hone,Nat.mod_one]⟩
  · obtain ⟨q,hq,hdvd⟩ := Nat.exists_prime_and_dvd hone
    refine ⟨q,hq,Nat.le_trans (Nat.le_of_dvd hm hdvd) (Nat.le_max_right _ _),?_⟩
    exact (Nat.dvd_mod_iff hdvd).mpr (dvd_pow_self q hn)

structure ExchangeParams (p g : UInt64) : Prop where
  prime : p.toNat.Prime
  le : p.toNat ≤ 2 ^ 32
  generator : ¬ p.toNat ∣ g.toNat

theorem exists_disagreement {a b : UInt64} (hb : b ≠ 0) :
    ∃ p g, ExchangeParams p g ∧ ¬ Agreement p g a b := by
  have hsecret : b.toNat ≠ 0 := fun h => hb (UInt64.toNat_inj.mp h)
  have hlt := publicNumber_lt a
  obtain ⟨q,hq,hle,hdvd⟩ := exists_prime_dvd_remainder (publicNumber_pos a) hsecret
  have hq2 := hq.two_le
  have hp : (UInt64.ofNat q).toNat = q := by
    rw [UInt64.toNat_ofNat']
    omega
  have hone : (1 : UInt64).toNat = 1 := rfl
  refine ⟨UInt64.ofNat q,1,⟨by rwa [hp],by omega,?_⟩,?_⟩
  · rw [hp,hone,Nat.dvd_one]
    omega
  · rw [agreement_iff_remainders,hp,if_neg hb,hone,Nat.one_pow,Nat.mod_eq_of_lt hq2]
    intro h
    rw [h.1,Nat.dvd_one] at hdvd
    omega

/-- Both secrets 0 is the one case in which the ends agree whatever the parameters, and the
only one with a secret 0 in which they agree at all. -/
theorem agreement_iff_secrets_zero (a b : UInt64) :
    ((∀ p g, ExchangeParams p g → Agreement p g a b) ↔ a = 0 ∧ b = 0) ∧
      (a = 0 ∨ b = 0 → ∀ p g, ExchangeParams p g → (Agreement p g a b ↔ a = 0 ∧ b = 0)) := by
  have henough : a = 0 ∧ b = 0 → ∀ p g, ExchangeParams p g → Agreement p g a b := by
    intro hzero p g hparams
    rw [hzero.1,hzero.2]
    exact agreement_of_secrets_zero hparams.prime.two_le g
  have hpointwise : a = 0 ∨ b = 0 → ∀ p g, ExchangeParams p g → Agreement p g a b →
      a = 0 ∧ b = 0 := by
    intro hzero p g hparams hagree
    have hboth : a = 0 ↔ b = 0 := by
      by_contra hone
      exact no_agreement_of_one_zero hparams.prime.two_le g hone hagree
    tauto
  refine ⟨⟨?_,henough⟩,fun hzero p g hparams =>
    ⟨hpointwise hzero p g hparams,fun hboth => henough hboth p g hparams⟩⟩
  intro hall
  by_cases hb : b = 0
  · have hparams : ExchangeParams 2 1 := ⟨by decide,by decide,by decide⟩
    exact hpointwise (.inr hb) 2 1 hparams (hall 2 1 hparams)
  · obtain ⟨p,g,hparams,hnot⟩ := exists_disagreement hb
    exact absurd (hall p g hparams) hnot

/-- With the repository's p and g and the secrets 1 and 2 the ends derive 26 and 5. -/
theorem agreement_fails : ¬ Agreement 101 863 1 2 := by
  intro h
  have hA : Transmits 101 863 1 [53,53] := ⟨.accepted 2,by decide +kernel⟩
  have hB : Transmits 101 863 2 [57,54] := ⟨.accepted 2,by decide +kernel⟩
  obtain ⟨k,h1,h2,_⟩ := h _ _ hA hB
  have h26 : generatePrivateKey (recv [53,53]) 101 2 = .ok 26 := by decide +kernel
  have h5 : generatePrivateKey (recv [57,54]) 101 1 = .ok 5 := by decide +kernel
  rw [h26] at h1
  rw [h5] at h2
  cases h1
  cases h2

/-- The derivation uses a number that the scan stored, and no remainder by zero. -/
def DerivationDefined (received : RecvResult) (secretKey : UInt64) : Prop :=
  generatePrivateKey received publicParams.1 secretKey ≠ .error .uninitRead ∧
    generatePrivateKey received publicParams.1 secretKey ≠ .error .divByZero

/-- Blanks, at most one sign, and then a row of digits that are not all 0. -/
def NonzeroNumber (cs : List UInt8) : Prop :=
  ∃ blanks sign digits rest, cs = blanks ++ (sign ++ (digits ++ rest)) ∧
    (∀ c ∈ blanks, isSpace c) ∧ (sign = [] ∨ sign = [43] ∨ sign = [45]) ∧
    (∀ c ∈ digits, Decimal.isDigit c) ∧ ∃ c ∈ digits, c ≠ 48

theorem strtoul_eq_zero_iff (negative : Bool) (n : Nat) : strtoul negative n = 0 ↔ n = 0 := by
  have hz : (0 : UInt64).toNat = 0 := rfl
  unfold strtoul
  split
  · constructor
    · intro h
      exact absurd h (by decide)
    · intro h
      omega
  · rename_i hlt
    have hn : (UInt64.ofNat n).toNat = n := by
      simp only [UInt64.toNat_ofNat']
      omega
    cases negative with
    | false => simp [← UInt64.toNat_inj,hn]
    | true =>
      rw [if_pos rfl,← UInt64.toNat_inj,UInt64.toNat_sub,hn,hz]
      omega

theorem scanSign_split (cs : List UInt8) :
    ∃ sign, cs = sign ++ (scanSign cs).2 ∧ (sign = [] ∨ sign = [43] ∨ sign = [45]) := by
  unfold scanSign
  split
  · exact ⟨[43],rfl,by simp⟩
  · exact ⟨[45],rfl,by simp⟩
  · exact ⟨[],rfl,by simp⟩

theorem scanSign_append (cs : List UInt8) {sign : List UInt8} {c : UInt8}
    (hc : Decimal.isDigit c) (hsign : sign = [] ∨ sign = [43] ∨ sign = [45]) :
    (scanSign (sign ++ c :: cs)).2 = c :: cs := by
  rcases hsign with h | h | h
  · simp [h,scanSign_of_isDigit hc]
  · simp [h,scanSign]
  · simp [h,scanSign]

theorem dropWhile_blanks (cs : List UInt8) {blanks sign : List UInt8} {c : UInt8}
    (hblanks : ∀ x ∈ blanks, isSpace x) (hc : Decimal.isDigit c)
    (hsign : sign = [] ∨ sign = [43] ∨ sign = [45]) :
    (blanks ++ (sign ++ c :: cs)).dropWhile isSpace = sign ++ c :: cs := by
  rw [List.dropWhile_append_of_pos hblanks]
  rcases hsign with h | h | h
  · simp [h,isSpace_of_isDigit hc]
  · subst h
    rfl
  · subst h
    rfl

theorem sscanfZu_nonzero_iff (s : Buffer) :
    (∃ v, sscanfZu s = some v ∧ v ≠ 0) ↔ NonzeroNumber s.text := by
  constructor
  · intro h
    obtain ⟨v,hv,hne⟩ := h
    obtain ⟨sign,hsplit,hsign⟩ := scanSign_split (s.text.dropWhile isSpace)
    simp only [sscanfZu] at hv
    split at hv
    · cases hv
    · cases hv
      have hvalue := (strtoul_eq_zero_iff _ _).not.mp hne
      have hdigits : ∀ c ∈ (scanSign (s.text.dropWhile isSpace)).2.takeWhile Decimal.isDigit,
          Decimal.isDigit c := fun c hc => List.mem_takeWhile_imp hc
      rw [Decimal.value_eq_zero_iff hdigits] at hvalue
      simp only [not_forall] at hvalue
      obtain ⟨c,hc,hc48⟩ := hvalue
      refine ⟨s.text.takeWhile isSpace,sign,_,
        (scanSign (s.text.dropWhile isSpace)).2.dropWhile Decimal.isDigit,?_,
        fun c hc => List.mem_takeWhile_imp hc,hsign,hdigits,c,hc,hc48⟩
      rw [List.takeWhile_append_dropWhile,← hsplit,List.takeWhile_append_dropWhile]
  · intro h
    obtain ⟨blanks,sign,digits,rest,htext,hblanks,hsign,hdigits,c,hc,hc48⟩ := h
    obtain ⟨d,ds,hds⟩ := List.exists_cons_of_ne_nil (List.ne_nil_of_mem hc)
    have hd : Decimal.isDigit d := hdigits d (by simp [hds])
    have hblank := dropWhile_blanks (ds ++ rest) hblanks hd hsign
    have hscan := scanSign_append (ds ++ rest) hd hsign
    rw [← List.cons_append,← hds] at hblank hscan
    -- the scan may read further digits behind those that are given
    have htake : (digits ++ rest).takeWhile Decimal.isDigit =
        digits ++ rest.takeWhile Decimal.isDigit := List.takeWhile_append_of_pos hdigits
    have hall : ∀ x ∈ digits ++ rest.takeWhile Decimal.isDigit, Decimal.isDigit x := by
      intro x hx
      rcases List.mem_append.mp hx with hx | hx
      · exact hdigits x hx
      · exact List.mem_takeWhile_imp hx
    have hmem : c ∈ digits ++ rest.takeWhile Decimal.isDigit := by simp [hc]
    have hvalue : Decimal.value (digits ++ rest.takeWhile Decimal.isDigit) ≠ 0 :=
      fun h => hc48 ((Decimal.value_eq_zero_iff hall).mp h c hmem)
    refine ⟨_,?_,(strtoul_eq_zero_iff
      (scanSign (sign ++ (digits ++ rest))).1 _).not.mpr hvalue⟩
    simp only [sscanfZu,htext,hblank,hscan,htake]
    rw [if_neg (List.ne_nil_of_mem hmem)]

theorem generatePrivateKey_cases (chunk : Chunk (maxBufferSize - 1)) (p secretKey : UInt64) :
    (NonzeroNumber (chunk.bytes.takeWhile (fun c => c ≠ 0)) ∧
      ∃ key, generatePrivateKey (.data chunk) p secretKey = .ok key) ∨
    (¬ NonzeroNumber (chunk.bytes.takeWhile (fun c => c ≠ 0)) ∧
      (generatePrivateKey (.data chunk) p secretKey = .error .uninitRead ∨
        generatePrivateKey (.data chunk) p secretKey = .error .divByZero)) := by
  rw [← Buffer.text_ofBytes,← sscanfZu_nonzero_iff]
  simp only [generatePrivateKey,readPublicKey_data]
  cases h : sscanfZu (Buffer.ofBytes chunk.bytes) with
  | none => simp [bind,Except.bind]
  | some v =>
    by_cases hv : v = 0
    · simp [bind,Except.bind,privateKey,modExp,hv]
    · simp [bind,Except.bind,privateKey,modExp,hv]

theorem derivation_defined_iff (chunk : Chunk (maxBufferSize - 1)) (secretKey : UInt64) :
    DerivationDefined (.data chunk) secretKey ↔
      NonzeroNumber (chunk.bytes.takeWhile (fun c => c ≠ 0)) := by
  unfold DerivationDefined
  rcases generatePrivateKey_cases chunk publicParams.1 secretKey with hderived | hundefined
  · obtain ⟨hnumber,key,hkey⟩ := hderived
    rw [hkey]
    exact iff_of_true ⟨nofun,nofun⟩ hnumber
  · refine iff_of_false ?_ hundefined.1
    intro h
    exact hundefined.2.elim h.1 h.2

theorem generatePrivateKey_ok_iff (chunk : Chunk (maxBufferSize - 1)) (p secretKey : UInt64) :
    (∃ key, generatePrivateKey (.data chunk) p secretKey = .ok key) ↔
      NonzeroNumber (chunk.bytes.takeWhile (fun c => c ≠ 0)) := by
  rcases generatePrivateKey_cases chunk p secretKey with hderived | hundefined
  · exact iff_of_true hderived.2 hderived.1
  · refine iff_of_false ?_ hundefined.1
    intro h
    obtain ⟨key,hkey⟩ := h
    rw [hkey] at hundefined
    rcases hundefined.2 with huninit | hzero
    · cases huninit
    · cases hzero

/-- The one byte 0 as first message makes mod_exp divide by zero. -/
theorem derivation_undefined_at_zero :
    ¬ ∀ chunk secretKey, DerivationDefined (.data chunk) secretKey := by
  intro h
  have hzero := (h ⟨[48],by simp,by decide⟩ 3343).2
  exact hzero (by decide +kernel)

theorem keyByte_of_lt {key : UInt64} (hkey : key.toNat < 256) {i : Nat} (hi : i ≠ 0) :
    keyByte key i = 0 := by
  have hpow : 256 ^ 1 ≤ 256 ^ i := Nat.pow_le_pow_right (by omega) (Nat.pos_of_ne_zero hi)
  rw [keyByte,Nat.div_eq_of_lt (by omega)]
  rfl

theorem encrypt_getElem?_of_lt {key : UInt64} (hkey : key.toNat < 256) (plaintext : Buffer) :
    ∃ ciphertext, encrypt (some plaintext) key = .ok ciphertext ∧
      ∀ i < plaintext.strlen, i % 8 ≠ 0 → ciphertext.mem[i]? = plaintext.mem[i]? := by
  refine ⟨_,encrypt_some plaintext key,fun i hi h8 => ?_⟩
  have hlen : i < (xorKey key plaintext.text).length := by simpa [Buffer.strlen] using hi
  have hmem : plaintext.mem[i]? = plaintext.text[i]? := by
    rw [← plaintext.take_strlen,List.getElem?_take_of_lt hi]
  rw [Buffer.mem_ofBytes,List.getElem?_append_left hlen,xorKey_getElem?,
    keyByte_of_lt hkey h8,hmem]
  simp

theorem honest_exchange_hides_at_most_every_eighth (a b : UInt64) :
    ∃ v, publicKey publicParams.1 publicParams.2 a = .ok v ∧ v ≠ 0 ∧
      ∃ k, generatePrivateKey (recv (Decimal.text v.toNat)) publicParams.1 b = .ok k ∧
        k.toNat < 101 ∧
        ∀ plaintext : Buffer, ∃ ciphertext, encrypt (some plaintext) k = .ok ciphertext ∧
          ∀ i < plaintext.strlen, i % 8 ≠ 0 → ciphertext.mem[i]? = plaintext.mem[i]? := by
  obtain ⟨v,hv,hval⟩ := publicKey_publicParams a
  have hpos := publicNumber_pos a
  have hlt := publicNumber_lt a
  obtain ⟨k,hk,hkval⟩ := derivedKey publicParams.1 b hpos hlt
  have hklt : k.toNat < 101 := by
    rw [hkval]
    split
    · omega
    · exact Nat.lt_trans (Nat.mod_lt _ hpos) hlt
  refine ⟨v,hv,ne_zero_of_toNat_pos (by omega),k,by rwa [hval],hklt,fun plaintext => ?_⟩
  exact encrypt_getElem?_of_lt (by omega) plaintext

end CTalk
