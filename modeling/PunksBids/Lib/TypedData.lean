import PunksBids.Lib.Abi

/-!
# Typed structured data

The generic side of EIP-712: a struct type is declared by a string such as
`Mail(address from,string contents)`, and a wallet that is given the string and the value of each
member computes the hash to be signed from them alone.  `parseStruct` reads the declaration,
`encodeData` is the encoding of the member values in the order of the declaration, and
`structHashInput` is what is hashed in the end: the hash of the declaration, then the data.
What is signed is `digestInput`, for a message under a domain.

* An atomic value is one word.
* A `string` or `bytes` value is the hash of its contents.
* An array is the hash of the concatenated encodings of its elements.

References from one struct to another are left out: a declaration that names an unknown type is
not parsed.

Nothing that is encoded gets lost: the hash that is signed determines both declarations and every
member that they declare (`typedDigest_inj`), or two strings that are hashed at the same place
collide.  The places are those of `digestStrings`, where each string comes before those whose hashes
it contains; so as far as two messages are the same, their strings are in the same places.
-/

set_option autoImplicit false

namespace Evm

namespace TypedData

/-! ## Types and values -/

/-- The type of a member. -/
inductive TypeName where
  | address
  | bool
  /-- `uintN`. -/
  | uint (bits : Nat)
  /-- `bytesN`. -/
  | fixedBytes (size : Nat)
  | string
  | bytes
  /-- `T[]`. -/
  | array (elem : TypeName)
  deriving DecidableEq, Repr

/-- The value of a member, as a wallet is given it. -/
inductive Value where
  /-- An atomic value, extended to a word. -/
  | atom (w : Uint256)
  /-- The contents of a `string` or `bytes`. -/
  | contents (b : Bytes)
  /-- The elements of an array. -/
  | elems (vs : List Value)

/-- `encodeData` of one member value; `none` if the value is not of the type. -/
def encodeValue : TypeName → Value → Option Bytes
  | .string, .contents b | .bytes, .contents b => some (wordBytes (keccak256 b))
  | .array t, .elems vs =>
    (vs.mapM (encodeValue t)).map fun parts ↦ wordBytes (keccak256 parts.flatten)
  | .address, .atom w | .bool, .atom w | .uint _, .atom w | .fixedBytes _, .atom w =>
    some (wordBytes w)
  | _, _ => none

/-- A member of a struct: its type and its name. -/
abbrev Member := TypeName × String

/-- The encodings of the members, in the order of the declaration. -/
def encodeData (ms : List Member) (val : String → Option Value) : Option Bytes :=
  (ms.mapM fun m ↦ val m.2 >>= encodeValue m.1).map List.flatten

/-! ## Declarations -/

/-- A decimal number without sign; `none` if there is no digit or something else. -/
def parseDecimal (cs : List Char) : Option Nat :=
  if cs = [] ∨ cs.any (fun c ↦ !c.isDigit) then none
  else some (cs.foldl (fun n c ↦ n * 10 + (c.toNat - '0'.toNat)) 0)

/-- A type that is not an array. -/
def parseAtomic (cs : List Char) : Option TypeName :=
  if cs = "address".toList then some .address
  else if cs = "bool".toList then some .bool
  else if cs = "string".toList then some .string
  else if cs = "bytes".toList then some .bytes
  else if cs.take 4 = "uint".toList then (parseDecimal (cs.drop 4)).map .uint
  else if cs.take 5 = "bytes".toList then (parseDecimal (cs.drop 5)).map .fixedBytes
  else none

/-- A type, written backwards so that the array brackets come first. -/
def parseTypeRev : List Char → Option TypeName
  | ']' :: '[' :: cs => (parseTypeRev cs).map .array
  | cs => parseAtomic cs.reverse

/-- `type name`. -/
def parseMember (cs : List Char) : Option Member :=
  match cs.splitOn ' ' with
  | [t, n] => (parseTypeRev t.reverse).map fun ty ↦ (ty, String.ofList n)
  | _ => none

/-- `Name(type₁ name₁,type₂ name₂,…)`. -/
def parseStruct (s : String) : Option (String × List Member) :=
  let name := s.toList.takeWhile (· ≠ '(')
  match s.toList.dropWhile (· ≠ '('), s.toList.getLast? with
  | '(' :: body, some ')' =>
    let ms := body.dropLast
    let members := if ms = [] then some [] else (ms.splitOn ',').mapM parseMember
    members.map fun l ↦ (String.ofList name, l)
  | _, _ => none

/-- What is hashed for a value of the struct type declared by `decl`. -/
def structHashInput (decl : String) (val : String → Option Value) : Option Bytes := do
  let (_, ms) ← parseStruct decl
  let data ← encodeData ms val
  return wordBytes (keccak256 (utf8 decl)) ++ data

/-- What is hashed to be signed, for a value under a domain: both are structs, each with its
declaration. -/
def digestInput (domainDecl : String) (domain : String → Option Value) (decl : String)
    (val : String → Option Value) : Option Bytes := do
  let domainInput ← structHashInput domainDecl domain
  let input ← structHashInput decl val
  return [0x19, 0x01] ++ wordBytes (keccak256 domainInput) ++ wordBytes (keccak256 input)

/-! ## Encoding rules -/

@[simp] theorem encodeData_nil (val : String → Option Value) : encodeData [] val = some [] := rfl

/-- One member after the other. -/
theorem encodeData_cons {t : TypeName} {n : String} {ms : List Member}
    {val : String → Option Value} {v : Value} {b bs : Bytes} (hv : val n = some v)
    (hb : encodeValue t v = some b) (hbs : encodeData ms val = some bs) :
    encodeData ((t, n) :: ms) val = some (b ++ bs) := by
  rw [encodeData, Option.map_eq_some_iff] at hbs
  obtain ⟨parts, hp, rfl⟩ := hbs
  have hm : ((t, n) :: ms).mapM (fun m ↦ val m.2 >>= encodeValue m.1) = some (b :: parts) := by
    rw [List.mapM_cons, hp]
    simp [hv, hb]
  rw [encodeData, hm, Option.map_some, List.flatten_cons]

/-- The encoding of a struct, by its parsed declaration. -/
theorem structHashInput_eq {decl name : String} {ms : List Member} {val : String → Option Value}
    {data : Bytes} (hdecl : parseStruct decl = some (name, ms))
    (hdata : encodeData ms val = some data) :
    structHashInput decl val = some (wordBytes (keccak256 (utf8 decl)) ++ data) := by
  simp only [structHashInput, hdecl, hdata, Option.bind_eq_bind, Option.bind_some, Option.pure_def]

/-- **An array of atomic values is hashed as its packed encoding.** -/
theorem encodeValue_array {α : Type} [StaticValue α] {t : TypeName}
    (ht : ∀ w, encodeValue t (.atom w) = some (wordBytes w)) (xs : List α) :
    encodeValue (.array t) (.elems (xs.map fun x ↦ .atom (word x))) =
      some (wordBytes (keccak256 (encodePackedArray xs))) := by
  have h : (xs.map fun x ↦ Value.atom (word x)).mapM (encodeValue t) =
      some (xs.map fun x ↦ wordBytes (word x)) := by
    induction xs with
    | nil => rfl
    | cons x xs ih => simp [List.mapM_cons, ht, ih]
  rw [encodeValue, h]
  simp [encodePackedArray, abiEncode, List.flatMap, Function.comp_def]

/-! ## The strings that are hashed -/

/-- The strings that are hashed to encode the value of a member. -/
def valueStrings : TypeName → Value → List Bytes
  | .string, .contents b | .bytes, .contents b => [b]
  | .array t, .elems vs =>
    ((vs.mapM (encodeValue t)).getD []).flatten :: vs.flatMap (valueStrings t)
  | _, _ => []

/-- The members that are declared. -/
def declaredMembers (decl : String) : List Member := ((parseStruct decl).map Prod.snd).getD []

/-- The strings that are hashed to encode a member. -/
def memberStrings (val : String → Option Value) (m : Member) : List Bytes :=
  ((val m.2).map (valueStrings m.1)).getD []

/-- The strings that are hashed for a value of a struct type, the outermost first. -/
def structStrings (decl : String) (val : String → Option Value) : List Bytes :=
  (structHashInput decl val).toList ++
    utf8 decl :: (declaredMembers decl).flatMap (memberStrings val)

/-- The strings that are hashed for a value under a domain, the outermost first. -/
def digestStrings (domainDecl : String) (domain : String → Option Value) (decl : String)
    (val : String → Option Value) : List Bytes :=
  (digestInput domainDecl domain decl val).toList ++ structStrings domainDecl domain ++
    structStrings decl val

section Strings

variable {domainDecl decl : String} {domain val : String → Option Value} {x : Bytes}

theorem structStrings_eq (h : structHashInput decl val = some x) :
    structStrings decl val =
      x :: utf8 decl :: (declaredMembers decl).flatMap (memberStrings val) := by
  rw [structStrings, h]
  rfl

theorem digestStrings_eq (h : digestInput domainDecl domain decl val = some x) :
    digestStrings domainDecl domain decl val =
      x :: (structStrings domainDecl domain ++ structStrings decl val) := by
  rw [digestStrings, h]
  rfl

/-- What is hashed for a struct, by its declared members. -/
theorem exists_data_of_structHashInput (h : structHashInput decl val = some x) :
    ∃ data, encodeData (declaredMembers decl) val = some data ∧
      wordBytes (keccak256 (utf8 decl)) ++ data = x := by
  simp only [structHashInput, Option.bind_eq_bind, Option.bind_eq_some_iff, Option.pure_def,
    Option.some.injEq] at h
  obtain ⟨⟨name, ms⟩, hparse, data, hdata, rfl⟩ := h
  refine ⟨data, ?_, rfl⟩
  rw [declaredMembers, hparse]
  exact hdata

end Strings

/-! ## What a hash determines -/

section Inversion

variable {t : TypeName} {v v' : Value} {b : Bytes}

/-- Atomic types have atomic values. -/
theorem encodeValue_atom (h : encodeValue t v = some b) (hs : t ≠ .string) (hb : t ≠ .bytes)
    (ha : ∀ t', t ≠ .array t') : ∃ w, v = .atom w ∧ wordBytes w = b := by
  cases t with
  | string => exact absurd rfl hs
  | bytes => exact absurd rfl hb
  | array t' => exact absurd rfl (ha t')
  | _ => cases v <;> simp_all [encodeValue]

theorem encodeValue_contents (h : encodeValue t v = some b) (ht : t = .string ∨ t = .bytes) :
    ∃ c, v = .contents c ∧ wordBytes (keccak256 c) = b := by
  rcases ht with rfl | rfl <;> cases v <;> simp_all [encodeValue]

theorem encodeValue_elems (h : encodeValue (.array t) v = some b) :
    ∃ vs parts, v = .elems vs ∧ vs.mapM (encodeValue t) = some parts ∧
      wordBytes (keccak256 parts.flatten) = b := by
  cases v <;> simp_all [encodeValue]

theorem length_of_encodeValue (h : encodeValue t v = some b) : b.length = 32 := by
  cases t with
  | string =>
    obtain ⟨_, -, rfl⟩ := encodeValue_contents h (.inl rfl)
    exact length_wordBytes _
  | bytes =>
    obtain ⟨_, -, rfl⟩ := encodeValue_contents h (.inr rfl)
    exact length_wordBytes _
  | array t =>
    obtain ⟨_, _, -, -, rfl⟩ := encodeValue_elems h
    exact length_wordBytes _
  | _ =>
    obtain ⟨_, -, rfl⟩ := encodeValue_atom h nofun nofun nofun
    exact length_wordBytes _

end Inversion

theorem mapM_cons_eq_some {α β : Type} {f : α → Option β} {a : α} {as : List α} {bs : List β} :
    (a :: as).mapM f = some bs ↔
      ∃ b bs', f a = some b ∧ as.mapM f = some bs' ∧ b :: bs' = bs := by
  simp [List.mapM_cons, Option.bind_eq_some_iff]

/-- Pieces of one size, written one after the other, are the same pairwise. -/
theorem forall₂_of_flatten {α β : Type} {f : α → Option Bytes} {g : β → Option Bytes} {k : Nat}
    (hk : 0 < k) (hf : ∀ {a p}, f a = some p → p.length = k)
    (hg : ∀ {b p}, g b = some p → p.length = k) {as : List α} {bs : List β} {ps qs : List Bytes}
    (h : as.mapM f = some ps) (h' : bs.mapM g = some qs) (heq : ps.flatten = qs.flatten) :
    List.Forall₂ (fun a b ↦ ∃ p, f a = some p ∧ g b = some p) as bs := by
  induction as generalizing bs ps qs with
  | nil =>
    obtain rfl : [] = ps := Option.some_inj.mp h
    cases bs with
    | nil => exact .nil
    | cons b bs =>
      obtain ⟨q, qs', hq, -, rfl⟩ := mapM_cons_eq_some.mp h'
      have hlen := congrArg List.length heq
      simp [hg hq] at hlen
      omega
  | cons a as ih =>
    obtain ⟨p, ps', hp, hps, rfl⟩ := mapM_cons_eq_some.mp h
    cases bs with
    | nil =>
      obtain rfl : [] = qs := Option.some_inj.mp h'
      have hlen := congrArg List.length heq
      simp [hf hp] at hlen
      omega
    | cons b bs =>
      obtain ⟨q, qs', hq, hqs, rfl⟩ := mapM_cons_eq_some.mp h'
      obtain ⟨rfl, hrest⟩ := List.append_inj heq ((hf hp).trans (hg hq).symm)
      exact .cons ⟨p, hp, hq⟩ (ih hps hqs hrest)

theorem encodeValue_contents_inj {t : TypeName} {v v' : Value} {b : Bytes}
    (ht : t = .string ∨ t = .bytes) (h : encodeValue t v = some b)
    (h' : encodeValue t v' = some b) :
    v = v' ∨ Collision (valueStrings t v) (valueStrings t v') := by
  obtain ⟨c, rfl, rfl⟩ := encodeValue_contents h ht
  obtain ⟨c', rfl, heq⟩ := encodeValue_contents h' ht
  have hmem : (c, c') ∈ (valueStrings t (.contents c)).zip (valueStrings t (.contents c')) := by
    rcases ht with rfl | rfl <;> simp [valueStrings]
  exact (eq_or_collision hmem (wordBytes_injective heq.symm)).imp_left (congrArg _)

/-- **An encoding determines the value**, or strings that are hashed for two values collide. -/
theorem encodeValue_inj {t : TypeName} {v v' : Value} {b : Bytes} (h : encodeValue t v = some b)
    (h' : encodeValue t v' = some b) :
    v = v' ∨ Collision (valueStrings t v) (valueStrings t v') := by
  induction t generalizing v v' b with
  | string => exact encodeValue_contents_inj (.inl rfl) h h'
  | bytes => exact encodeValue_contents_inj (.inr rfl) h h'
  | array t ih =>
    obtain ⟨vs, parts, rfl, hparts, rfl⟩ := encodeValue_elems h
    obtain ⟨vs', parts', rfl, hparts', heq⟩ := encodeValue_elems h'
    -- The hash of the array is undone first, and then each element.
    have hmem : (parts.flatten, parts'.flatten) ∈
        (valueStrings (.array t) (.elems vs)).zip (valueStrings (.array t) (.elems vs')) := by
      simp [valueStrings, hparts, hparts']
    rcases eq_or_collision hmem (wordBytes_injective heq.symm) with hflat | hcol
    swap
    · exact .inr hcol
    have hpairs := forall₂_of_flatten (by decide) length_of_encodeValue length_of_encodeValue hparts
      hparts' hflat
    have helems : List.Forall₂ (fun v v' ↦ v = v' ∨
        Collision (valueStrings t v) (valueStrings t v')) vs vs' :=
      hpairs.imp fun _ _ ⟨_, hp, hp'⟩ ↦ ih hp hp'
    rcases forall₂_or_collision (by rintro v _ rfl; rfl) helems with heqs | hcol
    · exact .inl (congrArg _ (List.forall₂_eq_eq_eq ▸ heqs))
    · exact .inr (hcol.cons _ _)
  | _ =>
    obtain ⟨w, rfl, rfl⟩ := encodeValue_atom h nofun nofun nofun
    obtain ⟨w', rfl, heq⟩ := encodeValue_atom h' nofun nofun nofun
    exact .inl (congrArg _ (wordBytes_injective heq.symm))

/-- The same for all members. -/
theorem encodeData_inj {ms : List Member} {val val' : String → Option Value} {data : Bytes}
    (h : encodeData ms val = some data) (h' : encodeData ms val' = some data) :
    (∀ m ∈ ms, val m.2 = val' m.2) ∨
      Collision (ms.flatMap (memberStrings val)) (ms.flatMap (memberStrings val')) := by
  obtain ⟨parts, hparts, rfl⟩ := Option.map_eq_some_iff.mp h
  obtain ⟨parts', hparts', heq⟩ := Option.map_eq_some_iff.mp h'
  have hlen {val : String → Option Value} {m : Member} {p : Bytes}
      (hp : (val m.2 >>= encodeValue m.1) = some p) : p.length = 32 := by
    obtain ⟨v, -, hv⟩ := Option.bind_eq_some_iff.mp hp
    exact length_of_encodeValue hv
  have hpairs := forall₂_of_flatten (by decide) hlen hlen hparts hparts' heq.symm
  have hmembers : List.Forall₂ (fun m m' ↦ (m = m' ∧ val m.2 = val' m.2) ∨
      Collision (memberStrings val m) (memberStrings val' m')) ms ms := by
    rw [List.forall₂_same] at hpairs ⊢
    intro m hm
    obtain ⟨p, hp, hp'⟩ := hpairs m hm
    obtain ⟨v, hv, hp⟩ := Option.bind_eq_some_iff.mp hp
    obtain ⟨v', hv', hp'⟩ := Option.bind_eq_some_iff.mp hp'
    rw [memberStrings, memberStrings, hv, hv']
    exact (encodeValue_inj hp hp').imp_left fun heq ↦ ⟨rfl, congrArg some heq⟩
  refine (forall₂_or_collision ?_ hmembers).imp_left fun hall m hm ↦ ?_
  · rintro m _ ⟨rfl, heq⟩
    rw [memberStrings, memberStrings, heq]
  · exact (List.forall₂_same.mp hall m hm).2

/-- **A struct hash determines the declaration and the members**, or two strings collide. -/
theorem structHash_inj {decl decl' : String} {val val' : String → Option Value} {x x' : Bytes}
    (h : structHashInput decl val = some x) (h' : structHashInput decl' val' = some x')
    (heq : keccak256 x = keccak256 x') :
    (decl = decl' ∧ ∀ m ∈ declaredMembers decl, val m.2 = val' m.2) ∨
      Collision (structStrings decl val) (structStrings decl' val') := by
  rw [structStrings_eq h, structStrings_eq h', or_iff_not_imp_right]
  intro hno
  obtain rfl := (eq_or_collision (by simp) heq).resolve_right hno
  obtain ⟨data, hdata, rfl⟩ := exists_data_of_structHashInput h
  obtain ⟨data', hdata', hinput⟩ := exists_data_of_structHashInput h'
  obtain ⟨hdecl, rfl⟩ := List.append_inj hinput (by simp)
  obtain rfl := utf8_injective ((eq_or_collision (by simp)
    (wordBytes_injective hdecl).symm).resolve_right hno)
  exact ⟨rfl, (encodeData_inj hdata hdata').resolve_right fun hcol ↦
    hno ((hcol.cons _ _).cons _ _)⟩

/-- **A digest determines the domain and the message**, or two strings collide. -/
theorem typedDigest_inj {domainDecl domainDecl' decl decl' : String}
    {domain domain' val val' : String → Option Value} {x x' : Bytes}
    (h : digestInput domainDecl domain decl val = some x)
    (h' : digestInput domainDecl' domain' decl' val' = some x')
    (heq : keccak256 x = keccak256 x') :
    ((domainDecl = domainDecl' ∧ ∀ m ∈ declaredMembers domainDecl, domain m.2 = domain' m.2) ∧
      decl = decl' ∧ ∀ m ∈ declaredMembers decl, val m.2 = val' m.2) ∨
      Collision (digestStrings domainDecl domain decl val)
        (digestStrings domainDecl' domain' decl' val') := by
  rw [digestStrings_eq h, digestStrings_eq h', or_iff_not_imp_right]
  intro hno
  obtain rfl := (eq_or_collision (by simp) heq).resolve_right hno
  simp only [digestInput, Option.bind_eq_bind, Option.bind_eq_some_iff, Option.pure_def,
    Option.some.injEq] at h h'
  obtain ⟨y, hy, z, hz, rfl⟩ := h
  obtain ⟨y', hy', z', hz', hinput⟩ := h'
  obtain ⟨hdomain, hstruct⟩ := List.append_inj hinput (by simp)
  replace hdomain := wordBytes_injective (List.append_cancel_left hdomain)
  obtain ⟨rfl, hagree⟩ := (structHash_inj hy hy' hdomain.symm).resolve_right fun hcol ↦
    hno ((hcol.append _ _).cons _ _)
  -- The domains are the same, so the strings of the messages are in the same places.
  have hlen : (structStrings domainDecl domain).length =
      (structStrings domainDecl domain').length := by
    have hmembers : (declaredMembers domainDecl).flatMap (memberStrings domain) =
        (declaredMembers domainDecl).flatMap (memberStrings domain') :=
      List.flatMap_congr fun m hm ↦ by rw [memberStrings, memberStrings, hagree m hm]
    rw [structStrings_eq hy, structStrings_eq hy', hmembers]
    rfl
  exact ⟨⟨rfl, hagree⟩, (structHash_inj hz hz' (wordBytes_injective hstruct).symm).resolve_right
    fun hcol ↦ hno ((hcol.append_left hlen).cons _ _)⟩

end TypedData

end Evm
