import Nutcracker.Conf.Number

/-!
# Server lines

A server is written `host:port:weight name` or `/path:weight name`, where the name may be missing.
`conf_add_server` takes such a line apart from its end: it looks for a blank, then twice for a
colon, and goes on to the zero byte that ends the list of these delimiters.  It is the number of
delimiters found that tells whether the line has the right form.

A line is a string that `string_copy` has copied whole.  It is shorter than `2 ^ 32 - 1` bytes, and
the lengths of its parts are what the 32-bit words that hold them say.
-/

namespace Nutcracker

open Lib

abbrev SPACE : UInt8 := 32
abbrev COLON : UInt8 := 58
abbrev SLASH : UInt8 := 47

/-- `_nc_strrchr` over the first `e` bytes of a line. -/
def ncStrrchr (text : Bytes) (c : UInt8) : Nat → Option Nat
  | 0 => none
  | e + 1 => if text[e]? = some c then some e else ncStrrchr text c e

/-- The parts of a line that have been found, and the number of bytes before them. -/
structure ServerFields where
  stop : Nat
  name : Option Bytes := none
  weight : Bytes := []
  port : Bytes := []
  deriving DecidableEq, Repr

/-- The part behind the delimiter number `k`, which was found at `q`. -/
def ServerFields.found (line : Bytes) (f : ServerFields) (k q : Nat) : ServerFields :=
  let part := textAt line f.stop (q + 1)
  match k with
  | 0 => { f with name := some part, stop := q }
  | 1 => { f with weight := part, stop := q }
  | 2 => { f with port := part, stop := q }
  | _ => { f with stop := q }

/-- The loop over the delimiters.  The name is optional, so the loop goes on if the blank is
missing, and stops at any other delimiter that is. -/
def scanServer (line : Bytes) : List UInt8 → Nat → ServerFields → Nat × ServerFields
  | [], k, f => (k, f)
  | c :: delim, k, f =>
      match ncStrrchr line c f.stop with
      | none => if k = 0 then scanServer line delim (k + 1) f else (k, f)
      | some q => scanServer line delim (k + 1) (f.found line k q)

/-- The delimiters, with the zero byte at their end. -/
def serverDelims : List UInt8 :=
  [SPACE, COLON, COLON, 0]

/-- `struct conf_server`, without the address that is resolved later. -/
structure ConfServer where
  pname : Bytes := []
  name : Bytes := []
  addrstr : Bytes := []
  port : Int := 0
  weight : Int := 0
  valid : Bool := false
  deriving DecidableEq, Repr

def CONF_DEFAULT_KETAMA_PORT : Int := 11211

def serverFormatError : String :=
  "has an invalid \"hostname:port:weight [name]\"or \"/path/unix_socket:weight [name]\" format string"

def serverWeightError : String :=
  "has an invalid weight in \"hostname:port:weight [name]\" format string"

def serverZeroWeightError : String :=
  "has a zero weight in \"hostname:port:weight [name]\" format string"

def serverPortError : String :=
  "has an invalid port in \"hostname:port:weight [name]\" format string"

/-- What the loop of `conf_add_server` finds. -/
def serverParts (line : Bytes) : Nat × ServerFields :=
  scanServer line serverDelims 0 { stop := line.length }

/-- `conf_add_server`: the new entry of the array of servers, and what is wrong with the line, if
anything is. -/
def confAddServer (line : Bytes) : ConfServer × Option String :=
  let inet := line.head? ≠ some SLASH
  let delimlen := if inet then 3 else 2
  let (k, f) := serverParts line
  if k ≠ delimlen then ({}, some serverFormatError)
  else
    let namelen := (f.name.getD []).length
    let pname := if 0 < namelen then line.take (line.length - (namelen + 1)) else line
    let addrstr := line.take f.stop
    let weight := ncAtoi f.weight
    let field : ConfServer := { pname, weight }
    if weight < 0 then (field, some serverWeightError)
    else if weight = 0 then (field, some serverZeroWeightError)
    else
      let port := if inet then ncAtoi f.port else 0
      let field := { field with port }
      if inet ∧ (port < 0 ∨ !ncValidPort port) then (field, some serverPortError)
      else
        let name := f.name.getD
          (if port = CONF_DEFAULT_KETAMA_PORT then addrstr
          else line.take (f.stop + 1 + f.port.length))
        ({ field with name, addrstr, valid := true }, none)

/-! ## Looking for a byte from the right -/

section Strrchr

variable {text before after : Bytes} {c : UInt8} {e : Nat}

theorem ncStrrchr_eq_none (absent : c ∉ text.take e) : ncStrrchr text c e = none := by
  induction e with
  | zero => rfl
  | succ e ih =>
    rw [List.take_add_one, List.mem_append, not_or] at absent
    rw [ncStrrchr, if_neg, ih absent.1]
    intro here
    exact absent.2 (by simp [here])

/-- The last of the bytes that are looked for. -/
theorem ncStrrchr_eq_some (split : text.take e = before ++ c :: after) (last : c ∉ after) :
    ncStrrchr text c e = some before.length := by
  induction e generalizing after with
  | zero => simp at split
  | succ e ih =>
    rw [List.take_add_one] at split
    rw [ncStrrchr]
    cases here : text[e]? with
    | none =>
      rw [here, Option.toList_none, List.append_nil] at split
      rw [if_neg (by simp)]
      exact ih split last
    | some d =>
      rw [here, Option.toList_some] at split
      rcases after.eq_nil_or_concat with rfl | ⟨after, d', rfl⟩
      · obtain ⟨same, rfl⟩ := List.append_inj' split rfl |>.imp_right List.singleton_inj.mp
        have inside : e < text.length := (List.getElem?_eq_some_iff.mp here).1
        rw [if_pos rfl, ← same, List.length_take, Nat.min_eq_left (Nat.le_of_lt inside)]
      · rw [List.concat_eq_append, ← List.cons_append, ← List.append_assoc] at split
        obtain ⟨same, rfl⟩ := List.append_inj' split rfl |>.imp_right List.singleton_inj.mp
        simp only [List.concat_eq_append, List.mem_append, List.mem_singleton, not_or] at last
        rw [if_neg (fun other => last.2 (Option.some.inj other).symm)]
        exact ih same last.1

/-- A byte of a text splits it at its last occurrence. -/
theorem exists_last (member : c ∈ text) :
    ∃ before after, text = before ++ c :: after ∧ c ∉ after := by
  obtain ⟨after, before, split, first⟩ := List.eq_append_cons_of_mem (List.mem_reverse.mpr member)
  refine ⟨before.reverse, after.reverse, ?_, by simpa using first⟩
  rw [← List.reverse_reverse text, split]
  simp

end Strrchr

/-! ## The loop -/

section Scan

variable {line head before after host path weight port : Bytes} {c : UInt8} {k : Nat}
  {delim : List UInt8} {f : ServerFields} {name : Option Bytes}

theorem scanServer_none (absent : c ∉ line.take f.stop) (later : k ≠ 0) :
    scanServer line (c :: delim) k f = (k, f) := by
  rw [scanServer, ncStrrchr_eq_none absent]
  exact if_neg later

theorem scanServer_some (split : line.take f.stop = before ++ c :: after) (last : c ∉ after) :
    scanServer line (c :: delim) k f =
      scanServer line delim (k + 1) (f.found line k before.length) := by
  rw [scanServer, ncStrrchr_eq_some split last]

/-- The part behind a delimiter. -/
theorem textAt_split (split : line.take f.stop = before ++ c :: after) :
    textAt line f.stop (before.length + 1) = after := by
  rw [textAt, split, List.drop_append]
  simp

/-- What is before a delimiter. -/
theorem take_split (split : line.take f.stop = before ++ c :: after) :
    line.take before.length = before := by
  have shorter : before.length ≤ f.stop := by
    have length := congrArg List.length split
    simp only [List.length_take, List.length_append, List.length_cons] at length
    omega
  rw [← Nat.min_eq_left shorter, ← List.take_take, split]
  simp

/-- A line with an optional name at its end. -/
def serverLine (head : Bytes) : Option Bytes → Bytes
  | none => head
  | some name => head ++ SPACE :: name

/-- The name is what follows the last blank. -/
def NameSplits (head : Bytes) : Option Bytes → Prop
  | none => SPACE ∉ head
  | some name => SPACE ∉ name

theorem take_serverLine : (serverLine head name).take head.length = head := by
  cases name <;> simp [serverLine]

/-- The name is found first. -/
theorem serverParts_serverLine (splits : NameSplits head name) :
    serverParts (serverLine head name) =
      scanServer (serverLine head name) [COLON, COLON, 0] 1
        { stop := head.length, name := name } := by
  unfold serverParts serverDelims
  cases name with
  | none =>
    have absent : SPACE ∉ (serverLine head none).take (serverLine head none).length := by
      rw [List.take_length]
      exact splits
    rw [scanServer, ncStrrchr_eq_none absent]
    rfl
  | some name =>
    have split : (serverLine head (some name)).take (serverLine head (some name)).length =
        head ++ SPACE :: name := List.take_length
    rw [scanServer_some split splits, ServerFields.found]
    simp only [textAt_split (f := { stop := (serverLine head (some name)).length }) split]

/-- The weight is behind the last colon before the name. -/
theorem scanServer_weight (name : Option Bytes) (whole : line.take head.length = head)
    (split : head = before ++ COLON :: weight) (inWeight : COLON ∉ weight) :
    scanServer line [COLON, COLON, 0] 1 { stop := head.length, name } =
        scanServer line [COLON, 0] 2 { stop := before.length, name, weight } ∧
      line.take before.length = before := by
  have split' : line.take ({ stop := head.length, name } : ServerFields).stop =
      before ++ COLON :: weight := whole.trans split
  refine ⟨?_, take_split split'⟩
  rw [scanServer_some split' inWeight, ServerFields.found]
  simp only [textAt_split split']

/-- The port is behind the colon before that. -/
theorem scanServer_port (name : Option Bytes) (weight : Bytes)
    (whole : line.take head.length = head)
    (split : head = before ++ COLON :: port) (inPort : COLON ∉ port) :
    scanServer line [COLON, 0] 2 { stop := head.length, name, weight } =
        scanServer line [0] 3 { stop := before.length, name, weight, port } ∧
      line.take before.length = before := by
  have split' : line.take ({ stop := head.length, name, weight } : ServerFields).stop =
      before ++ COLON :: port := whole.trans split
  refine ⟨?_, take_split split'⟩
  rw [scanServer_some split' inPort, ServerFields.found]
  simp only [textAt_split split']

/-- A line of the form `host:port:weight`. -/
theorem serverParts_inet (splits : NameSplits (host ++ COLON :: port ++ COLON :: weight) name)
    (inPort : COLON ∉ port) (inWeight : COLON ∉ weight) (zero : 0 ∉ host) :
    serverParts (serverLine (host ++ COLON :: port ++ COLON :: weight) name) =
      (3, { stop := host.length, name, weight, port }) := by
  obtain ⟨first, whole⟩ := scanServer_weight name take_serverLine rfl inWeight
  obtain ⟨second, rest⟩ := scanServer_port name weight whole rfl inPort
  rw [serverParts_serverLine splits, first, second]
  exact scanServer_none (by rwa [rest]) (by decide)

/-- A line of the form `/path:weight`. -/
theorem serverParts_unix (splits : NameSplits (path ++ COLON :: weight) name)
    (inPath : COLON ∉ path) (inWeight : COLON ∉ weight) :
    serverParts (serverLine (path ++ COLON :: weight) name) =
      (2, { stop := path.length, name, weight }) := by
  obtain ⟨first, whole⟩ := scanServer_weight name take_serverLine rfl inWeight
  rw [serverParts_serverLine splits, first]
  exact scanServer_none (by rwa [whole]) (by decide)

/-- How far the loop gets: to the first colon that is missing, but not further than three. -/
theorem serverParts_count (splits : NameSplits head name) (zero : 0 ∉ head) :
    (serverParts (serverLine head name)).1 = 1 + min 2 (head.count COLON) := by
  by_cases none_ : COLON ∉ head
  · rw [serverParts_serverLine splits, scanServer_none (by rwa [take_serverLine]) (by decide),
      List.count_eq_zero_of_not_mem none_]
    rfl
  obtain ⟨before, weight, rfl, inWeight⟩ := exists_last (not_not.mp none_)
  rw [List.count_append, List.count_cons_self, List.count_eq_zero_of_not_mem inWeight]
  obtain ⟨first, whole⟩ := scanServer_weight name take_serverLine rfl inWeight
  by_cases one : COLON ∉ before
  · rw [serverParts_serverLine splits, first, scanServer_none (by rwa [whole]) (by decide),
      List.count_eq_zero_of_not_mem one]
    rfl
  obtain ⟨host, port, rfl, inPort⟩ := exists_last (not_not.mp one)
  rw [serverParts_inet splits inPort inWeight fun inHost => zero (by simp [inHost])]
  rw [List.count_append, List.count_cons_self, List.count_eq_zero_of_not_mem inPort]
  simp only
  omega

/-- What decides about the form of a line. -/
theorem confAddServer_format (splits : NameSplits head name) (zero : 0 ∉ head)
    (wrong : 1 + min 2 (head.count COLON) ≠
      if (serverLine head name).head? ≠ some SLASH then 3 else 2) :
    (confAddServer (serverLine head name)).2 = some serverFormatError := by
  rw [← serverParts_count splits zero] at wrong
  unfold confAddServer
  cases parts : serverParts (serverLine head name) with
  | mk k f =>
    rw [parts] at wrong
    simp only
    rw [if_pos wrong]

end Scan

/-! ## Lines that are accepted -/

/-- A text is a decimal number. -/
def DecimalOf (text : Bytes) (n : Nat) : Prop :=
  text ≠ [] ∧ Digits text ∧ decVal text = n

instance (text : Bytes) (n : Nat) : Decidable (DecimalOf text n) :=
  inferInstanceAs (Decidable (_ ∧ _))

/-- A name is not empty and has no blank. -/
def IsName (name : Bytes) : Prop :=
  name ≠ [] ∧ SPACE ∉ name

instance (name : Bytes) : Decidable (IsName name) :=
  inferInstanceAs (Decidable (_ ∧ _))

section Accepted

variable {host path port weight head : Bytes} {name : Option Bytes} {p w : Nat}

theorem DecimalOf.not_mem {text : Bytes} {n : Nat} (numeral : DecimalOf text n) {c : UInt8}
    (other : isdigit c = false) : c ∉ text := by
  intro member
  rw [numeral.2.1 c member] at other
  cases other

theorem DecimalOf.ncAtoi {text : Bytes} {n : Nat} (numeral : DecimalOf text n) (fits : n < 2 ^ 31) :
    ncAtoi text = n := by
  obtain ⟨some_, digits, rfl⟩ := numeral
  exact ncAtoi_of_le some_ digits fits

theorem nameSplits_of_isName (plain : SPACE ∉ head) (named : ∀ n ∈ name, IsName n) :
    NameSplits head name := by
  cases name with
  | none => exact plain
  | some n => exact (named n rfl).2

/-- What is left when the name is cut off. -/
theorem take_pname (head : Bytes) (named : ∀ n ∈ name, IsName n) :
    (if 0 < (name.getD []).length then
        (serverLine head name).take ((serverLine head name).length - ((name.getD []).length + 1))
      else serverLine head name) = head := by
  cases name with
  | none => rfl
  | some n =>
    have some_ : 0 < n.length := List.length_pos_iff.mpr (named n rfl).1
    simp only [Option.getD_some, serverLine, List.length_append, List.length_cons]
    rw [if_pos some_]
    simp

theorem head?_serverLine (some_ : head ≠ []) : (serverLine head name).head? = head.head? := by
  cases name with
  | none => rfl
  | some n =>
    rw [serverLine, List.head?_append_of_ne_nil _ some_]

/-- The beginning of a line. -/
theorem take_serverLine_append (a b : Bytes) {k : Nat} (le : k ≤ a.length) :
    (serverLine (a ++ b) name).take k = a.take k := by
  cases name with
  | none => exact List.take_append_of_le_length le
  | some n =>
    rw [serverLine, List.append_assoc]
    exact List.take_append_of_le_length le

/-- `host:port:weight`, with or without a name. -/
theorem confAddServer_inet (some_ : host ≠ []) (plain : SPACE ∉ host) (zero : 0 ∉ host)
    (inet : host.head? ≠ some SLASH) (portText : DecimalOf port p) (weightText : DecimalOf weight w)
    (portLow : 1 ≤ p) (portHigh : p ≤ 65535) (weightLow : 1 ≤ w) (weightHigh : w ≤ 2 ^ 31 - 1)
    (named : ∀ n ∈ name, IsName n) :
    confAddServer (serverLine (host ++ COLON :: port ++ COLON :: weight) name) =
      ({ pname := host ++ COLON :: port ++ COLON :: weight
         name := name.getD (if p = 11211 then host else host ++ COLON :: port)
         addrstr := host, port := p, weight := w, valid := true }, none) := by
  have differ : SPACE ≠ COLON := by decide
  have blankPort : SPACE ∉ port := portText.not_mem (by decide)
  have blankWeight : SPACE ∉ weight := weightText.not_mem (by decide)
  have splits : NameSplits (host ++ COLON :: port ++ COLON :: weight) name :=
    nameSplits_of_isName (by simp [plain, blankPort, blankWeight, differ]) named
  have parts := serverParts_inet splits (portText.not_mem (by decide))
    (weightText.not_mem (by decide)) zero
  have first : (serverLine (host ++ COLON :: port ++ COLON :: weight) name).head? ≠ some SLASH := by
    rw [head?_serverLine (by simp), List.append_assoc, List.head?_append_of_ne_nil _ some_]
    exact inet
  have addr : (serverLine (host ++ COLON :: port ++ COLON :: weight) name).take host.length =
      host := by
    rw [take_serverLine_append _ _ (by simp)]
    simp
  have both : (serverLine (host ++ COLON :: port ++ COLON :: weight) name).take
      (host.length + 1 + port.length) = host ++ COLON :: port := by
    rw [take_serverLine_append _ _ (by simp; omega), List.take_of_length_le (by simp; omega)]
  have weightRead := weightText.ncAtoi (by omega)
  have portRead := portText.ncAtoi (by omega)
  have valid : ncValidPort p = true := by
    simp [ncValidPort]
    omega
  have pname := take_pname (host ++ COLON :: port ++ COLON :: weight) named
  unfold confAddServer
  simp only [parts, first, ne_eq, not_false_eq_true, if_true, not_true_eq_false, if_false,
    weightRead, portRead, addr, both, pname, valid]
  rw [if_neg (by omega), if_neg (by omega), if_neg (by simp)]
  simp only [CONF_DEFAULT_KETAMA_PORT]
  norm_cast

/-- `/path:weight`, with or without a name. -/
theorem confAddServer_unix (local_ : path.head? = some SLASH) (plain : SPACE ∉ path)
    (inPath : COLON ∉ path) (weightText : DecimalOf weight w) (weightLow : 1 ≤ w)
    (weightHigh : w ≤ 2 ^ 31 - 1) (named : ∀ n ∈ name, IsName n) :
    confAddServer (serverLine (path ++ COLON :: weight) name) =
      ({ pname := path ++ COLON :: weight, name := name.getD (path ++ [COLON])
         addrstr := path, weight := w, valid := true }, none) := by
  have differ : SPACE ≠ COLON := by decide
  have some_ : path ≠ [] := by
    rintro rfl
    cases local_
  have blankWeight : SPACE ∉ weight := weightText.not_mem (by decide)
  have splits : NameSplits (path ++ COLON :: weight) name :=
    nameSplits_of_isName (by simp [plain, blankWeight, differ]) named
  have parts := serverParts_unix splits inPath (weightText.not_mem (by decide))
  have first : (serverLine (path ++ COLON :: weight) name).head? = some SLASH := by
    rw [head?_serverLine (by simp), List.head?_append_of_ne_nil _ some_]
    exact local_
  have addr : (serverLine (path ++ COLON :: weight) name).take path.length = path := by
    rw [take_serverLine_append _ _ (Nat.le_refl _), List.take_length]
  have colon : (serverLine (path ++ COLON :: weight) name).take (path.length + 1 + 0) =
      path ++ [COLON] := by
    rw [List.append_cons, take_serverLine_append _ _ (by simp), List.take_of_length_le (by simp)]
  have weightRead := weightText.ncAtoi (by omega)
  have pname := take_pname (path ++ COLON :: weight) named
  unfold confAddServer
  simp only [parts, first, ne_eq, not_true_eq_false, if_false, weightRead, addr, pname,
    List.length_nil, colon, false_and]
  rw [if_neg (by omega), if_neg (by omega)]
  rfl

/-- Server lines are read as they are written, and lines with the wrong number of colons before the
name are refused. -/
theorem confAddServer_reads_back :
    (∀ (host port weight : Bytes) (name : Option Bytes) (p w : Nat), host ≠ [] → SPACE ∉ host →
      0 ∉ host → host.head? ≠ some SLASH → DecimalOf port p → DecimalOf weight w → 1 ≤ p →
      p ≤ 65535 → 1 ≤ w → w ≤ 2 ^ 31 - 1 → (∀ n ∈ name, IsName n) →
      confAddServer (serverLine (host ++ COLON :: port ++ COLON :: weight) name) =
        ({ pname := host ++ COLON :: port ++ COLON :: weight
           name := name.getD (if p = 11211 then host else host ++ COLON :: port)
           addrstr := host, port := p, weight := w, valid := true }, none)) ∧
    (∀ (path weight : Bytes) (name : Option Bytes) (w : Nat), path.head? = some SLASH →
      SPACE ∉ path → COLON ∉ path → DecimalOf weight w → 1 ≤ w → w ≤ 2 ^ 31 - 1 →
      (∀ n ∈ name, IsName n) →
      ∃ server, confAddServer (serverLine (path ++ COLON :: weight) name) = (server, none) ∧
        server.addrstr = path ∧ server.weight = w ∧ server.pname = path ++ COLON :: weight ∧
        ∀ n ∈ name, server.name = n) ∧
    (∀ (head : Bytes) (name : Option Bytes), NameSplits head name → 0 ∉ serverLine head name →
      (serverLine head name).head? ≠ some SLASH → head.count COLON < 2 →
      (confAddServer (serverLine head name)).2 = some serverFormatError) ∧
    ∀ (head : Bytes) (name : Option Bytes), NameSplits head name → 0 ∉ serverLine head name →
      (serverLine head name).head? = some SLASH → head.count COLON ≠ 1 →
      (confAddServer (serverLine head name)).2 = some serverFormatError := by
  have zeroHead : ∀ {head : Bytes} {name : Option Bytes}, 0 ∉ serverLine head name → 0 ∉ head := by
    intro head name zero member
    refine zero ?_
    cases name with
    | none => exact member
    | some n => exact List.mem_append_left _ member
  refine ⟨?_, ?_, ?_, ?_⟩
  · intro host port weight name p w some_ plain zero inet portText weightText portLow portHigh
      weightLow weightHigh named
    exact confAddServer_inet some_ plain zero inet portText weightText portLow portHigh weightLow
      weightHigh named
  · intro path weight name w local_ plain inPath weightText weightLow weightHigh named
    refine ⟨_, confAddServer_unix local_ plain inPath weightText weightLow weightHigh named, rfl,
      rfl, rfl, ?_⟩
    rintro n rfl
    rfl
  · intro head name splits zero inet few
    refine confAddServer_format splits (zeroHead zero) ?_
    rw [if_pos inet]
    omega
  · intro head name splits zero local_ wrong
    refine confAddServer_format splits (zeroHead zero) ?_
    rw [if_neg (not_not.mpr local_)]
    omega

/-- `a:b:22121:1 c:d`, whose host has a colon and whose name has one. -/
theorem confAddServer_reads_back_named :
    confAddServer ("a:b:22121:1 c:d".toList.map byteOf) =
      ({ pname := "a:b:22121:1".toList.map byteOf, name := "c:d".toList.map byteOf
         addrstr := "a:b".toList.map byteOf, port := 22121, weight := 1, valid := true }, none) :=
  confAddServer_reads_back.1 ("a:b".toList.map byteOf) ("22121".toList.map byteOf)
    ("1".toList.map byteOf) (some ("c:d".toList.map byteOf)) 22121 1 (by decide) (by decide)
    (by decide) (by decide) (by decide) (by decide) (by decide) (by decide) (by decide) (by decide)
    (by rintro n ⟨⟩; decide)

end Accepted

/-! ## The numbers that are stored -/

/-- The weight and the port of a line that is accepted. -/
theorem confAddServer_ok {line : Bytes} {server : ConfServer}
    (accepted : confAddServer line = (server, none)) :
    server.weight = ncAtoi (serverParts line).2.weight ∧ 0 ≤ server.weight ∧
      (line.head? ≠ some SLASH →
        server.port = ncAtoi (serverParts line).2.port ∧ 0 ≤ server.port) := by
  simp only [confAddServer] at accepted
  by_cases inet : line.head? = some SLASH
  · simp only [inet, ne_eq, not_true, if_false, false_and] at accepted ⊢
    split at accepted
    · simp at accepted
    split at accepted
    · simp at accepted
    split at accepted
    · simp at accepted
    cases accepted
    refine ⟨rfl, ?_, False.elim⟩
    simp only
    omega
  · simp only [ne_eq, inet, not_false_eq_true, if_true, true_and] at accepted ⊢
    split at accepted
    · simp at accepted
    split at accepted
    · simp at accepted
    split at accepted
    · simp at accepted
    split at accepted
    · simp at accepted
    rename_i validPort
    rw [not_or] at validPort
    cases accepted
    simp only [true_implies, true_and]
    omega

/-- A number that is stored was written, and is the one that was written unless it wraps around. -/
theorem exists_numeral_of_stored {text : Bytes} {num : Int} (stored : num = ncAtoi text)
    (accepted : 0 ≤ num) : ∃ n, DecimalOf text n ∧ (num = n ↔ ¬ Wraps text) := by
  subst stored
  obtain ⟨some_, digits, exact_⟩ := ncAtoi_of_nonneg accepted
  exact ⟨decVal text, ⟨some_, digits, rfl⟩, exact_⟩

/-- Numbers are exact or refused, and those that are stored are the ones that were written, for
exactly the texts that do not wrap around. -/
theorem numbers_exact_iff (np : Int) (text line : Bytes) :
    (ncAtoi text = exactAtoi text ↔ ¬ Wraps text) ∧
    (∀ num, confSetNum np text = .ok num →
      ∃ n, DecimalOf text n ∧ (num = n ↔ ¬ Wraps text)) ∧
    ∀ server, confAddServer line = (server, none) →
      (∃ w, DecimalOf (serverParts line).2.weight w ∧
        (server.weight = w ↔ ¬ Wraps (serverParts line).2.weight)) ∧
      (line.head? ≠ some SLASH → ∃ p, DecimalOf (serverParts line).2.port p ∧
        (server.port = p ↔ ¬ Wraps (serverParts line).2.port)) := by
  refine ⟨ncAtoi_eq_exactAtoi_iff, ?_, ?_⟩
  · intro num stored
    obtain ⟨same, accepted⟩ := confSetNum_ok stored
    exact exists_numeral_of_stored same accepted
  · intro server accepted
    obtain ⟨weight, weightAccepted, inet⟩ := confAddServer_ok accepted
    refine ⟨exists_numeral_of_stored weight weightAccepted, fun first => ?_⟩
    obtain ⟨port, portAccepted⟩ := inet first
    exact exists_numeral_of_stored port portAccepted

/-- 2³² + 1 is read as 1, as a number, as a weight and as a port. -/
theorem numbers_not_exact :
    ncAtoi ("4294967297".toList.map byteOf) = 1 ∧
      exactAtoi ("4294967297".toList.map byteOf) = -1 ∧
      confSetNum CONF_UNSET_NUM ("4294967297".toList.map byteOf) = .ok 1 ∧
      confAddServer ("h:4294967297:4294967297".toList.map byteOf) =
        ({ pname := "h:4294967297:4294967297".toList.map byteOf
           name := "h:4294967297".toList.map byteOf, addrstr := "h".toList.map byteOf
           port := 1, weight := 1, valid := true }, none) := by
  decide +kernel

end Nutcracker
