import DistributedSystems.Decimal
import DistributedSystems.KvServer

/-! # The entries that clients append

The data of the append test in `kvtest1/kvtest.go`: the entries `(me, i)`, the JSON text under which
a list of them is stored (`GetJson`, `PutJson`), and the check of the final list
(`CheckAppends`).

`unmarshal` reads the texts that `marshal` writes (`unmarshal_marshal`).  `CheckAppends` passes
whenever the entries of every client are increasing and the counts of the clients' results leave
room for the entries that are missing (`checkAppends_ok`). -/

namespace DistributedSystems.Append

open DistributedSystems.Kv

/-- An `entry`: the iteration `n` of the client `id`. -/
structure Entry where
  id : ℕ
  n : ℕ
deriving DecidableEq, Repr

/-! ### JSON -/

/-- The text before the field `Id`. -/
def idText : List Char := "\x7b\"Id\":".toList

/-- The text between the fields. -/
def nText : List Char := ",\"N\":".toList

def endText : List Char := "\x7d".toList

def Entry.json (e : Entry) : List Char :=
  idText ++ ((toString e.id).toList ++ (nText ++ ((toString e.n).toList ++ endText)))

/-- The elements of an array up to its closing bracket. -/
def elementsText : Entry → List Entry → List Char
  | e, [] => e.json ++ [']']
  | e, e' :: es => e.json ++ ',' :: elementsText e' es

/-- `json.Marshal` of a list of entries. -/
def marshal : List Entry → String
  | [] => "[]"
  | e :: es => String.ofList ('[' :: elementsText e es)

def parseNumber (cs : List Char) : Option (ℕ × List Char) :=
  if cs.takeWhile Char.isDigit = [] then none
  else some (Nat.ofDigitChars 10 (cs.takeWhile Char.isDigit) 0, cs.dropWhile Char.isDigit)

def parseEntry (cs : List Char) : Option (Entry × List Char) := do
  let cs ← cs.dropPrefix? idText
  let (id, cs) ← parseNumber cs
  let cs ← cs.dropPrefix? nText
  let (n, cs) ← parseNumber cs
  let cs ← cs.dropPrefix? endText
  some (⟨id, n⟩, cs)

/-- The elements of an array; the fuel bounds their number. -/
def parseElements : ℕ → List Char → Option (List Entry)
  | 0, _ => none
  | fuel + 1, cs => do
      let (e, cs) ← parseEntry cs
      match cs with
      | ',' :: cs => (parseElements fuel cs).map (e :: ·)
      | [']'] => some [e]
      | _ => none

/-- `json.Unmarshal` into a list of entries, for texts of the form that `marshal` writes. -/
def unmarshal (val : String) : Option (List Entry) :=
  match val.toList with
  | ['[', ']'] => some []
  | '[' :: cs => parseElements cs.length cs
  | _ => none

theorem parseNumber_toString (k : ℕ) {c : Char} (hc : c.isDigit = false) (cs : List Char) :
    parseNumber ((toString k).toList ++ c :: cs) = some (k, c :: cs) := by
  have hdigits : ∀ d ∈ (toString k).toList, d.isDigit = true := fun d => isDigit_of_mem_toString
  have htake : ((toString k).toList ++ c :: cs).takeWhile Char.isDigit = (toString k).toList := by
    rw [List.takeWhile_append_of_pos hdigits, List.takeWhile_cons_of_neg (by simp [hc]),
      List.append_nil]
  have hdrop : ((toString k).toList ++ c :: cs).dropWhile Char.isDigit = c :: cs := by
    rw [List.dropWhile_append_of_pos hdigits, List.dropWhile_cons_of_neg (by simp [hc])]
  have hval : Nat.ofDigitChars 10 (toString k).toList 0 = k := by
    rw [show toString k = k.repr from rfl, Nat.toList_repr]
    exact Nat.ofDigitChars_toDigits (by decide) (by decide)
  rw [parseNumber, htake, hdrop, if_neg (toString_toList_ne_nil k), hval]

theorem parseEntry_json (e : Entry) (cs : List Char) :
    parseEntry (e.json ++ cs) = some (e, cs) := by
  have hprefix : ∀ p cs : List Char, (p ++ cs).dropPrefix? p = some cs :=
    fun p cs => List.dropPrefix?_append_of_beq cs (beq_self_eq_true p)
  have hid := parseNumber_toString e.id (c := ',') rfl
    ("\"N\":".toList ++ ((toString e.n).toList ++ (endText ++ cs)))
  have hn := parseNumber_toString e.n (c := '\x7d') rfl cs
  simp only [parseEntry, Entry.json, List.append_assoc, hprefix, Option.bind_eq_bind,
    Option.bind_some]
  rw [show nText ++ ((toString e.n).toList ++ (endText ++ cs)) =
    ',' :: ("\"N\":".toList ++ ((toString e.n).toList ++ (endText ++ cs))) from rfl, hid]
  dsimp only [Option.bind_some]
  rw [show ',' :: ("\"N\":".toList ++ ((toString e.n).toList ++ (endText ++ cs))) =
    nText ++ ((toString e.n).toList ++ (endText ++ cs)) from rfl, hprefix]
  dsimp only [Option.bind_some]
  rw [show endText ++ cs = '\x7d' :: cs from rfl, hn]
  dsimp only [Option.bind_some]
  rw [show '\x7d' :: cs = endText ++ cs from rfl, hprefix]
  rfl

theorem parseElements_text : ∀ (es : List Entry) (e : Entry) {fuel : ℕ}, es.length < fuel →
    parseElements fuel (elementsText e es) = some (e :: es)
  | [], e, fuel + 1, _ => by
      simp [parseElements, elementsText, parseEntry_json]
  | e' :: es, e, fuel + 1, h => by
      have hfuel : es.length < fuel := by simpa using h
      have ih := parseElements_text es e' hfuel
      simp [parseElements, elementsText, parseEntry_json, ih]

theorem length_lt_elementsText : ∀ (es : List Entry) (e : Entry),
    es.length < (elementsText e es).length
  | [], e => by simp [elementsText]
  | e' :: es, e => by
      have ih := length_lt_elementsText es e'
      simp only [elementsText, List.length_append, List.length_cons]
      omega

/-- Reading back what was written. -/
theorem unmarshal_marshal (es : List Entry) : unmarshal (marshal es) = some es := by
  cases es with
  | nil => rfl
  | cons e es =>
      have hparse := parseElements_text es e (length_lt_elementsText es e)
      -- an entry starts with a brace, so the array is not the empty one
      have hne : elementsText e es ≠ [']'] := by
        have h : (elementsText e es).head? = some '\x7b' := by cases es <;> rfl
        intro he
        rw [he] at h
        cases h
      simpa only [unmarshal, marshal, String.toList_ofList] using hparse

/-! ### CheckAppends -/

structure ClntRes where
  nok : ℕ
  nmaybe : ℕ
deriving DecidableEq, Repr

/-- The maps `expect` and `skipped` of `CheckAppends`; a missing key reads as `0`. -/
structure Tally where
  expect : ℕ → ℕ
  skipped : ℕ → ℕ

/-- The body of the loop over the entries. -/
def Tally.add (t : Tally) (e : Entry) : Except String Tally :=
  if e.n < t.expect e.id then
    .error (toString e.id ++ ": wrong expecting " ++ toString (t.expect e.id) ++ " but got " ++
      toString e.n)
  else if t.expect e.id = e.n then
    .ok { t with expect := Function.update t.expect e.id (t.expect e.id + 1) }
  else
    -- missing entries because of failed put
    .ok ⟨Function.update t.expect e.id (e.n + 1),
      Function.update t.skipped e.id (t.skipped e.id + (e.n - t.expect e.id))⟩

/-- The body of the loop over the clients. -/
def Tally.checkClient (t : Tally) (rs : List ClntRes) (c : ℕ) : Except String Unit :=
  match rs[c]? with
  | none => .error "index out of range"
  | some r =>
      if r.nmaybe < t.skipped c then
        .error (toString c ++ ": skipped puts " ++ toString (t.skipped c) ++ " on server > " ++
          toString r.nmaybe ++ " maybe")
      else if r.nok + r.nmaybe < t.expect c then
        .error (toString c ++ ": " ++ toString (t.expect c) ++ " puts on server > ok+maybe " ++
          toString (r.nok + r.nmaybe))
      else .ok ()

/-- `CheckAppends`.  The last loop goes over the keys of `expect` in any order: the clients and
the ids of the entries. -/
def checkAppends (es : List Entry) (nclnt : ℕ) (rs : List ClntRes) (ver : Tversion) :
    Except String Unit := do
  let t ← es.foldlM Tally.add ⟨fun _ => 0, fun _ => 0⟩
  if Int64.ofNat (es.length + 1) ≠ ver.toInt64 then
    .error (toString es.length ++ " appends in val != puts on server " ++ toString ver)
  else
    (List.range nclnt ++ (es.map Entry.id).filter (nclnt ≤ ·)).forM (t.checkClient rs)

/-- The entries of every client are increasing. -/
def Increasing (es : List Entry) : Prop := es.Pairwise (fun e e' => e.id = e'.id → e.n < e'.n)

/-- The number of entries of a client. -/
def entriesOf (c : ℕ) (es : List Entry) : ℕ := es.countP (fun e => e.id == c)

/-- The maps after the entries `es`: a client is expected to go on after its last entry, and the
iterations before that are in the list or skipped. -/
structure Tally.Counts (t : Tally) (es : List Entry) : Prop where
  total : ∀ c, t.expect c = t.skipped c + entriesOf c es
  last : ∀ c, t.expect c = 0 ∨ ∃ e ∈ es, e.id = c ∧ t.expect c = e.n + 1

theorem Tally.Counts.add {t : Tally} {es : List Entry} {e : Entry} (h : t.Counts es)
    (hnew : ∀ e' ∈ es, e'.id = e.id → e'.n < e.n) :
    ∃ t', t.add e = .ok t' ∧ t'.Counts (es ++ [e]) := by
  have hle : t.expect e.id ≤ e.n := by
    rcases h.last e.id with h0 | ⟨e', he', hid, hl⟩
    · omega
    · have := hnew e' he' hid
      omega
  have htotal := h.total e.id
  have hcount : ∀ c, entriesOf c (es ++ [e]) = entriesOf c es + if e.id = c then 1 else 0 := by
    intro c
    simp [entriesOf, List.countP_append, List.countP_cons]
  -- both branches set `expect` to the iteration after the new entry
  have hlast : ∀ t' : Tally, t'.expect = Function.update t.expect e.id (e.n + 1) →
      ∀ c, t'.expect c = 0 ∨ ∃ e' ∈ es ++ [e], e'.id = c ∧ t'.expect c = e'.n + 1 := by
    intro t' ht' c
    by_cases hc : e.id = c
    · exact Or.inr ⟨e, by simp, hc, by simp [ht', ← hc]⟩
    · rw [ht', Function.update_of_ne (Ne.symm hc)]
      rcases h.last c with h0 | ⟨e', he', hid, hl⟩
      · exact Or.inl h0
      · exact Or.inr ⟨e', by simp [he'], hid, hl⟩
  by_cases heq : t.expect e.id = e.n
  · refine ⟨_, by rw [Tally.add, if_neg (by omega), if_pos heq], ?_, hlast _ (by simp [heq])⟩
    intro c
    rw [hcount]
    by_cases hc : e.id = c
    · subst hc
      simp only [Function.update_self, if_true]
      omega
    · simp only [Function.update_of_ne (Ne.symm hc), if_neg hc]
      exact h.total c
  · refine ⟨_, by rw [Tally.add, if_neg (by omega), if_neg heq], ?_, hlast _ rfl⟩
    intro c
    rw [hcount]
    by_cases hc : e.id = c
    · subst hc
      simp only [Function.update_self, if_true]
      omega
    · simp only [Function.update_of_ne (Ne.symm hc), if_neg hc]
      exact h.total c

theorem Tally.counts_foldlM {es : List Entry} (h : Increasing es) :
    ∃ t, es.foldlM Tally.add ⟨fun _ => 0, fun _ => 0⟩ = .ok t ∧ t.Counts es := by
  induction es using List.reverseRecOn with
  | nil => exact ⟨_, rfl, ⟨fun _ => rfl, fun _ => Or.inl rfl⟩⟩
  | append_singleton es e ih =>
      rw [Increasing, List.pairwise_append] at h
      obtain ⟨t, ht, hc⟩ := ih h.1
      obtain ⟨t', ht', hc'⟩ := hc.add (e := e) (fun e' he' => h.2.2 e' he' e List.mem_cons_self)
      refine ⟨t', ?_, hc'⟩
      simp only [List.foldlM_append, ht, List.foldlM_cons, List.foldlM_nil, bind_pure]
      exact ht'

theorem forM_ok {ε α : Type} {f : α → Except ε Unit} :
    ∀ {l : List α}, (∀ a ∈ l, f a = .ok ()) → l.forM f = .ok ()
  | [], _ => rfl
  | a :: l, h => by
      change (f a >>= fun _ => l.forM f) = _
      rw [h a List.mem_cons_self]
      exact forM_ok (fun b hb => h b (List.mem_cons_of_mem _ hb))

/-- A list passes the check when it is increasing, has the length the version says, and every
client has at least its `OK` entries in it, all of them of iterations it has finished. -/
theorem checkAppends_ok {es : List Entry} {nclnt : ℕ} {rs : List ClntRes} {ver : Tversion}
    (hinc : Increasing es) (hver : ver = UInt64.ofNat (es.length + 1)) (hrs : rs.length = nclnt)
    (hid : ∀ e ∈ es, e.id < nclnt)
    (hnok : ∀ c r, rs[c]? = some r → r.nok ≤ entriesOf c es)
    (hn : ∀ c r, rs[c]? = some r → ∀ e ∈ es, e.id = c → e.n < r.nok + r.nmaybe) :
    checkAppends es nclnt rs ver = .ok () := by
  obtain ⟨t, ht, hc⟩ := Tally.counts_foldlM hinc
  have hkeys : (es.map Entry.id).filter (nclnt ≤ ·) = [] := by
    rw [List.filter_eq_nil_iff]
    intro c hc
    obtain ⟨e, he, rfl⟩ := List.mem_map.mp hc
    simpa using hid e he
  have hcheck : ∀ c ∈ List.range nclnt, t.checkClient rs c = .ok () := by
    intro c hlt
    rw [List.mem_range, ← hrs] at hlt
    have hr := List.getElem?_eq_getElem hlt
    have hexpect : t.expect c ≤ rs[c].nok + rs[c].nmaybe := by
      rcases hc.last c with h0 | ⟨e, he, hec, hl⟩
      · omega
      · have := hn c _ hr e he hec
        omega
    have htotal := hc.total c
    have := hnok c _ hr
    rw [Tally.checkClient, hr]
    dsimp only
    rw [if_neg (by omega), if_neg (by omega)]
  simp only [checkAppends, ht, hkeys, List.append_nil]
  change (if _ then _ else _) = _
  rw [if_neg, forM_ok hcheck]
  rw [hver, not_not]
  rfl

end DistributedSystems.Append
