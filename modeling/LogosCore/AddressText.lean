import Mathlib

/-! # The text form of an account address

An address is written as sixty digits of a 32-letter alphabet after `lgs_`: 256 bits of the account
and a checksum of 40 bits. Decoding looks each character up in a table whose entries for foreign
characters are not recognised as such: they are digits of value 78. -/
namespace LogosCore.AddressText

open BitVec (eq_of_toNat_eq ofNat toNat_ofNat)

abbrev Byte := BitVec 8

def bytes (s : String) : List Byte := s.toList.map fun c => BitVec.ofNat 8 c.toNat

def accountLookup : List Byte := bytes "13456789abcdefghijkmnopqrstuwxyz"

def accountReverse : List Byte :=
  bytes "~0~1234567~~~~~~~~~~~~~~~~~~~~~~~~~~~~~~~~~~~~~~~89:;<=>?@AB~CDEFGHIJK~LMNO~~~~~"

def accountEncode (value : ℕ) : Byte := accountLookup.getD value 0

/-- `account_decode`; a failed assertion or a read outside the table is `none`. -/
def accountDecode (value : Byte) : Option Byte :=
  if 0x30 ≤ value ∧ value ≤ 0x7e then (accountReverse[(value - 0x30).toNat]?).map (· - 0x30)
  else none

/-- Decoding ends with an error, with a value, or in a failed assertion. -/
inductive Outcome (α : Type)
  | fails
  | error
  | done (a : α)
  deriving DecidableEq

/-- The loop of `decode_account`, with its 512-bit number. -/
def readDigits (number : ℕ) : List Byte → Outcome ℕ
  | [] => .done number
  | character::rest =>
    if character < 0x30 ∨ 0x80 ≤ character then .error
    else match accountDecode character with
    | none => .fails
    | some byte =>
      if byte = 0x7e then .error
      else readDigits ((number * 32 % 2 ^ 512 + byte.toNat) % 2 ^ 512) rest

/-- The length, the letters before the digits and the first digit are as they should be. -/
def Shaped (source : List Byte) : Prop :=
  source.length = 64 ∧ source.take 3 = bytes "lgs" ∧
    (source[3]? = some 0x5f ∨ source[3]? = some 0x2d) ∧
    (source[4]? = some 0x31 ∨ source[4]? = some 0x33)

instance (source : List Byte) : Decidable (Shaped source) := inferInstanceAs (Decidable (_ ∧ _))

variable (digest : BitVec 256 → BitVec 40)

def decodeAccount (source : List Byte) : Outcome (BitVec 256) :=
  if Shaped source then
    match readDigits 0 (source.drop 4) with
    | .done number =>
      let account := BitVec.ofNat 256 (number / 2 ^ 40)
      if BitVec.ofNat 40 number = digest account then .done account else .error
    | .error => .error
    | .fails => .fails
  else .error

def lowDigits : ℕ → ℕ → List ℕ
  | 0,_ => []
  | count + 1,number => number % 32::lowDigits count (number / 32)

def number (account : BitVec 256) : ℕ := account.toNat <<< 40 ||| (digest account).toNat

def encodeAccount (account : BitVec 256) : List Byte :=
  ((lowDigits 60 (number digest account)).map accountEncode ++ bytes "_sgl").reverse

/-- The text of the account, possibly with a dash in place of the underscore. -/
def Spells (source : List Byte) (account : BitVec 256) : Prop :=
  source = encodeAccount digest account ∨ source = (encodeAccount digest account).set 3 0x2d

variable {digest} {n : ℕ}

theorem length_lowDigits (count n : ℕ) : (lowDigits count n).length = count := by
  induction count generalizing n with
  | zero => rfl
  | succ count ih => simp [lowDigits,ih]

theorem lt_of_mem_lowDigits {count v : ℕ} (h : v ∈ lowDigits count n) : v < 32 := by
  induction count generalizing n with
  | zero => cases h
  | succ count ih =>
    rcases List.mem_cons.mp h with rfl | h
    · exact Nat.mod_lt _ (by decide)
    · exact ih h

theorem ofDigits_lowDigits (count n : ℕ) :
    Nat.ofDigits 32 (lowDigits count n) = n % 32 ^ count := by
  induction count generalizing n with
  | zero => simp [lowDigits,Nat.mod_one]
  | succ count ih => rw [lowDigits,Nat.ofDigits_cons,ih,pow_succ',Nat.mod_mul]

theorem lowDigits_ofDigits {vs : List ℕ} (h : ∀ v ∈ vs,v < 32) :
    lowDigits vs.length (Nat.ofDigits 32 vs) = vs := by
  induction vs with
  | nil => rfl
  | cons v vs ih =>
    have hv : v < 32 := h v List.mem_cons_self
    rw [List.length_cons,lowDigits,Nat.ofDigits_cons]
    refine congrArg₂ _ (by omega) ?_
    rw [show ((v : ℕ) + 32 * Nat.ofDigits 32 vs) / 32 = Nat.ofDigits 32 vs by omega]
    exact ih fun u hu => h u (.tail _ hu)

theorem decode_encode {v : ℕ} (hv : v < 32) :
    ¬(accountEncode v < 0x30 ∨ 0x80 ≤ accountEncode v) ∧
      accountDecode (accountEncode v) = some (ofNat 8 v) ∧ ofNat 8 v ≠ 0x7e := by
  have htable : ∀ v : Fin 32,¬(accountEncode v < 0x30 ∨ 0x80 ≤ accountEncode v) ∧
      accountDecode (accountEncode v) = some (ofNat 8 v) ∧ ofNat 8 v ≠ 0x7e := by
    decide +kernel
  exact htable ⟨v,hv⟩

theorem readDigits_append {xs ys : List Byte} {m : ℕ} (h : readDigits n xs = .done m) :
    readDigits n (xs ++ ys) = readDigits m ys := by
  induction xs generalizing n with
  | nil =>
    cases h
    rfl
  | cons c xs ih =>
    rw [readDigits] at h
    rw [List.cons_append,readDigits]
    split at h
    · cases h
    · next hrange =>
      rw [if_neg hrange]
      cases hdecode : accountDecode c with
      | none =>
        rw [hdecode] at h
        cases h
      | some b =>
        simp only [hdecode] at h ⊢
        split at h
        · cases h
        · next hb =>
          rw [if_neg hb]
          exact ih h

theorem readDigits_letters {vs : List ℕ} (hvs : ∀ v ∈ vs,v < 32)
    (hfits : (n + 1) * 32 ^ vs.length ≤ 2 ^ 512) :
    readDigits n (vs.reverse.map accountEncode) =
      .done (n * 32 ^ vs.length + Nat.ofDigits 32 vs) := by
  induction vs with
  | nil => simp [readDigits]
  | cons v vs ih =>
    obtain ⟨hv,hvs⟩ := List.forall_mem_cons.mp hvs
    obtain ⟨hrange,hdecode,hne⟩ := decode_encode hv
    rw [List.length_cons,pow_succ,← mul_assoc] at hfits
    have hlt := Nat.ofDigits_lt_base_pow_length (by decide : 1 < 32) hvs
    have hvalue : (ofNat 8 v).toNat = v := by
      rw [toNat_ofNat]
      omega
    rw [List.reverse_cons,List.map_append,readDigits_append (ih hvs (by omega)),List.map_singleton,
      readDigits,if_neg hrange,hdecode]
    simp only [if_neg hne,hvalue,readDigits,Nat.ofDigits_cons,List.length_cons]
    rw [add_mul,one_mul] at hfits
    rw [Nat.mod_eq_of_lt (a := _ * 32) (by omega),Nat.mod_eq_of_lt (by omega),pow_succ]
    congr 1
    ring

/-- Sixty digits make up the number they stand for. -/
theorem readDigits_reverse {vs : List ℕ} (hvs : ∀ v ∈ vs,v < 32) (hlength : vs.length ≤ 60) :
    readDigits 0 (vs.reverse.map accountEncode) = .done (Nat.ofDigits 32 vs) := by
  rw [readDigits_letters hvs,zero_mul,zero_add]
  rw [zero_add,one_mul]
  exact le_trans (Nat.pow_le_pow_right (by decide) hlength) (by decide +kernel)

theorem number_eq (digest : BitVec 256 → BitVec 40) (account : BitVec 256) :
    number digest account = account.toNat * 2 ^ 40 + (digest account).toNat := by
  rw [number,← Nat.shiftLeft_add_eq_or_of_lt (digest account).isLt,Nat.shiftLeft_eq]

theorem encodeAccount_eq (account : BitVec 256) : encodeAccount digest account =
    bytes "lgs_" ++ (lowDigits 60 (number digest account)).reverse.map accountEncode := by
  congr 1

theorem lowDigits_succ (count n : ℕ) :
    lowDigits (count + 1) n = lowDigits count n ++ [n / 32 ^ count % 32] := by
  induction count generalizing n with
  | zero => simp [lowDigits]
  | succ count ih =>
    rw [lowDigits,ih,Nat.div_div_eq_div_mul,← pow_succ',lowDigits]
    rfl

/-- The first digit of an account is 0 or 1, for it has one bit only. -/
theorem encodeAccount_shaped (account : BitVec 256) : Shaped (encodeAccount digest account) := by
  have hlt : number digest account / 32 ^ 59 < 2 := by
    rw [number_eq,Nat.div_lt_iff_lt_mul (by positivity)]
    omega
  have hfirst : ∀ v < 2,accountEncode v = 0x31 ∨ accountEncode v = 0x33 := by decide +kernel
  rw [encodeAccount_eq,lowDigits_succ,Nat.mod_eq_of_lt (lt_trans hlt (by decide)),
    List.reverse_append,List.reverse_singleton]
  refine ⟨?_,rfl,.inl rfl,?_⟩
  · simp [length_lowDigits,bytes]
  · exact (hfirst _ hlt).imp (congrArg some) (congrArg some)

theorem drop_encodeAccount (account : BitVec 256) : (encodeAccount digest account).drop 4 =
    (lowDigits 60 (number digest account)).reverse.map accountEncode := by
  rfl

theorem decodeAccount_encodeAccount (account : BitVec 256) :
    decodeAccount digest (encodeAccount digest account) = .done account := by
  have hnumber := number_eq digest account
  have hmod : number digest account % 32 ^ 60 = number digest account := by
    omega
  have hdiv : ofNat 256 (number digest account / 2 ^ 40) = account := by
    refine eq_of_toNat_eq ?_
    rw [toNat_ofNat]
    omega
  have hcheck : ofNat 40 (number digest account) = digest account := by
    refine eq_of_toNat_eq ?_
    rw [toNat_ofNat]
    omega
  rw [decodeAccount,if_pos (encodeAccount_shaped account),drop_encodeAccount,
    readDigits_reverse (fun v => lt_of_mem_lowDigits) (length_lowDigits ..).le,ofDigits_lowDigits,
    hmod]
  simp only [hdiv,hcheck,if_pos]

theorem decodeAccount_done {source : List Byte} {account : BitVec 256}
    (h : decodeAccount digest source = .done account) : Shaped source ∧ ∃ n,
      readDigits 0 (source.drop 4) = .done n ∧
      account = ofNat 256 (n / 2 ^ 40) ∧ ofNat 40 n = digest account := by
  unfold decodeAccount at h
  split at h
  · next hshaped =>
    split at h
    · next n hread =>
      dsimp only at h
      split at h
      · next hcheck =>
        cases h
        exact ⟨hshaped,n,hread,rfl,hcheck⟩
      · cases h
    · cases h
    · cases h
  · cases h

theorem exists_digits {cs : List Byte} (h : ∀ c ∈ cs,c ∈ accountLookup) :
    ∃ vs : List ℕ,(∀ v ∈ vs,v < 32) ∧ cs = vs.reverse.map accountEncode := by
  have hletter : ∀ c ∈ accountLookup,∃ v : Fin 32,accountEncode v = c := by decide +kernel
  have hmem : cs ∈ Set.range (List.map fun v : Fin 32 => accountEncode v) := by
    rw [Set.range_list_map]
    exact fun c hc => hletter c (h c hc)
  obtain ⟨ws,rfl⟩ := hmem
  refine ⟨(ws.map Fin.val).reverse,fun v hv => ?_,by simp⟩
  obtain ⟨w,-,rfl⟩ := List.mem_map.mp (List.mem_reverse.mp hv)
  exact w.isLt

/-- A text with letters of the alphabet only is the one of its account. -/
theorem spells_of_letters {source : List Byte} {account : BitVec 256}
    (h : decodeAccount digest source = .done account)
    (hletters : ∀ c ∈ source.drop 4,c ∈ accountLookup) : Spells digest source account := by
  obtain ⟨⟨hlength,htake,hdash,hfirst⟩,n,hread,haccount,hcheck⟩ := decodeAccount_done h
  obtain ⟨vs,hvs,hdrop⟩ := exists_digits hletters
  have hvlength : vs.length = 60 := by simpa [hlength] using (congrArg List.length hdrop).symm
  rw [hdrop,readDigits_reverse hvs hvlength.le] at hread
  have hn : Nat.ofDigits 32 vs = n := Outcome.done.inj hread
  -- the first digit is the highest one
  obtain ⟨low,d,rfl⟩ : ∃ low d,vs = low ++ [d] :=
    ⟨_,_,(List.dropLast_append_getLast (List.ne_nil_of_length_pos (by omega))).symm⟩
  have hlow : low.length = 59 := by simpa using hvlength
  have hd : d < 2 := by
    have htop : ∀ v < 32,accountEncode v = 0x31 ∨ accountEncode v = 0x33 → v < 2 := by
      decide +kernel
    have hat : source[4]? = some (accountEncode d) := by
      have h := congrArg (·[0]?) hdrop
      simpa [List.getElem?_drop] using h
    rw [hat] at hfirst
    exact htop d (hvs d (by simp)) (hfirst.imp Option.some.inj Option.some.inj)
  have hlt : n < 2 ^ 296 := by
    have hrest := Nat.ofDigits_lt_base_pow_length (by decide : 1 < 32)
      fun v hv => hvs v (List.mem_append_left [d] hv)
    rw [hlow] at hrest
    rw [← hn,Nat.ofDigits_append,Nat.ofDigits_singleton,hlow]
    omega
  have hnumber : number digest account = n := by
    rw [number_eq,← hcheck,haccount,toNat_ofNat,toNat_ofNat]
    omega
  have hencode : encodeAccount digest account = bytes "lgs_" ++ source.drop 4 := by
    rw [encodeAccount_eq,hnumber,hdrop,← hvlength,← hn,lowDigits_ofDigits hvs]
  have hsource : ∀ c,source[3]? = some c → source = (bytes "lgs" ++ [c]) ++ source.drop 4 := by
    intro c hc
    have hfour : source.take 4 = bytes "lgs" ++ [c] := by
      rw [List.take_add_one,htake,hc]
      rfl
    rw [← hfour,List.take_append_drop]
  unfold Spells
  rw [hencode]
  exact hdash.imp (hsource _) (hsource _)

theorem letters_of_spells {source : List Byte} {account : BitVec 256}
    (h : Spells digest source account) : ∀ c ∈ source.drop 4,c ∈ accountLookup := by
  have hdrop : source.drop 4 = (encodeAccount digest account).drop 4 := by
    rcases h with rfl | rfl
    · rfl
    · rw [List.drop_set_of_lt (by decide)]
  have hletter : ∀ v < 32,accountEncode v ∈ accountLookup := by decide +kernel
  rw [hdrop,drop_encodeAccount]
  intro c hc
  obtain ⟨v,hv,rfl⟩ := List.mem_map.mp hc
  exact hletter v (lt_of_mem_lowDigits (List.mem_reverse.mp hv))

/-- The character after the last one of the table passes the check of the range. -/
theorem readDigits_fails_iff {cs : List Byte} : readDigits n cs = .fails ↔
    ∃ xs rest,cs = xs ++ 0x7f::rest ∧ ∀ c ∈ xs,0x30 ≤ c ∧ c ≤ 0x7e := by
  induction cs generalizing n with
  | nil => simp [readDigits]
  | cons c cs ih =>
    have htable : ∀ c : Byte,0x30 ≤ c ∧ c ≤ 0x7e → ¬(c < 0x30 ∨ 0x80 ≤ c) ∧
        accountDecode c ≠ none ∧ accountDecode c ≠ some 0x7e ∧ c ≠ 0x7f := by decide +kernel
    have hrange : ∀ c : Byte,¬(0x30 ≤ c ∧ c ≤ 0x7e) → c ≠ 0x7f → c < 0x30 ∨ 0x80 ≤ c := by
      decide +kernel
    by_cases hc : 0x30 ≤ c ∧ c ≤ 0x7e
    · obtain ⟨hrange,hsome,hne,hlast⟩ := htable c hc
      obtain ⟨b,hb⟩ := Option.ne_none_iff_exists'.mp hsome
      have hb' : b ≠ 0x7e := fun heq => hne (heq ▸ hb)
      rw [readDigits,if_neg hrange,hb]
      simp only [if_neg hb']
      rw [ih]
      constructor
      · rintro ⟨xs,rest,rfl,hxs⟩
        exact ⟨c::xs,rest,rfl,List.forall_mem_cons.mpr ⟨hc,hxs⟩⟩
      · rintro ⟨xs,rest,heq,hxs⟩
        cases xs with
        | nil => exact absurd (List.cons.inj heq).1 hlast
        | cons x xs => exact ⟨xs,rest,(List.cons.inj heq).2,(List.forall_mem_cons.mp hxs).2⟩
    · by_cases hlast : c = 0x7f
      · subst hlast
        exact iff_of_true rfl ⟨[],cs,rfl,by simp⟩
      · rw [readDigits,if_pos (hrange c hc hlast)]
        refine iff_of_false (by simp) ?_
        rintro ⟨xs,rest,heq,hxs⟩
        cases xs with
        | nil => exact hlast (List.cons.inj heq).1
        | cons x xs => exact hc ((List.cons.inj heq).1 ▸ hxs x List.mem_cons_self)

/-- Every account is read back from its text. An accepted text is that of its account exactly if all
its digits are letters of the alphabet, and an assertion fails exactly if `0x7f` is met. -/
theorem decodeAccount_canonical_iff (digest : BitVec 256 → BitVec 40) :
    (∀ account,decodeAccount digest (encodeAccount digest account) = .done account) ∧
    (∀ source account,decodeAccount digest source = .done account →
      (Spells digest source account ↔ ∀ c ∈ source.drop 4,c ∈ accountLookup)) ∧
    ∀ source,decodeAccount digest source = .fails ↔ Shaped source ∧
      ∃ xs rest,source.drop 4 = xs ++ 0x7f::rest ∧ ∀ c ∈ xs,0x30 ≤ c ∧ c ≤ 0x7e := by
  refine ⟨decodeAccount_encodeAccount,fun source account h =>
    ⟨letters_of_spells,spells_of_letters h⟩,fun source => ?_⟩
  rw [← readDigits_fails_iff (n := 0),decodeAccount]
  split
  · next hshaped =>
    cases readDigits 0 (source.drop 4) with
    | fails => simp [hshaped]
    | error => simp
    | done n =>
      dsimp only
      split <;> simp
  · next hshaped => simp [hshaped]

/-- Account 78 ends in the digits 2 and 14. With 0 and a foreign character there the number is the
same. -/
def otherSpelling (digest : BitVec 256 → BitVec 40) : List Byte :=
  bytes "lgs_1111111111111111111111111111111111111111111111111110" ++
    (lowDigits 8 (digest 78).toNat).reverse.map accountEncode

theorem decodeAccount_otherSpelling : (∀ digest,
    decodeAccount digest (otherSpelling digest) = .done 78 ∧
      ¬Spells digest (otherSpelling digest) 78) ∧
    ∀ digest,decodeAccount digest (bytes "lgs_1" ++ List.replicate 59 0x7f) = .fails := by
  refine ⟨fun digest => ⟨?_,fun h => ?_⟩,fun digest => ?_⟩
  · have hshaped : Shaped (otherSpelling digest) := by
      refine ⟨?_,rfl,.inl rfl,.inl rfl⟩
      simp [otherSpelling,length_lowDigits,bytes]
    have hhigh : readDigits 0 (bytes "1111111111111111111111111111111111111111111111111110") =
      .done 78 := by decide +kernel
    have hdrop : (otherSpelling digest).drop 4 =
      bytes "1111111111111111111111111111111111111111111111111110" ++
        (lowDigits 8 (digest 78).toNat).reverse.map accountEncode := rfl
    rw [decodeAccount,if_pos hshaped,hdrop,readDigits_append hhigh,
      readDigits_letters (fun v => lt_of_mem_lowDigits) (by rw [length_lowDigits]; decide +kernel),
      length_lowDigits,ofDigits_lowDigits,Nat.mod_eq_of_lt (by norm_num; omega)]
    have hdiv : ofNat 256 ((78 * 32 ^ 8 + (digest 78).toNat) / 2 ^ 40) = 78 := by
      rw [show (78 * 32 ^ 8 + (digest 78).toNat) / 2 ^ 40 = 78 by omega]
      rfl
    have hcheck : ofNat 40 (78 * 32 ^ 8 + (digest 78).toNat) = digest 78 := by
      refine eq_of_toNat_eq ?_
      rw [toNat_ofNat]
      omega
    simp only [hdiv,hcheck,if_pos]
  · have hforeign : (0x30 : Byte) ∉ accountLookup := by decide +kernel
    refine hforeign (letters_of_spells h 0x30 (List.mem_append_left _ ?_))
    decide +kernel
  · have hread : readDigits 0 ((bytes "lgs_1" ++ List.replicate 59 0x7f).drop 4) = .fails := by
      decide +kernel
    rw [decodeAccount,if_pos (by decide +kernel),hread]

end LogosCore.AddressText
