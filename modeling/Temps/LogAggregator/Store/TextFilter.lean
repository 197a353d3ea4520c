import Temps.LogAggregator.Chunk.Bloom

namespace Temps.LogAggregator.Store.TextFilter

open Lib.Fallible Lib.Octets Lib.Utf8 Lib.Unicode Lib.Fields LogAggregator.Types Chunk List

def needleOf (u : Tables) (text : Option Text) : Option Text :=
  ((text.map u.trim).filter (· ≠ [])).map u.toLowercase

def isAscii (text : Text) : Bool := text.all fun c ↦ c.toNat < 0x80

/-- `LineFilter::text_matches`: an ASCII needle is searched in the folded bytes of the message, any
other in its lower case. -/
def textMatches (u : Tables) (needle : Option Text) (message : Text) : Bool :=
  match needle with
  | none => true
  | some n =>
    if isAscii n then decide (encode n <:+: folded message)
    else decide (n <:+: u.toLowercase message)

def needleEntries (u : Tables) (xxh3 : Xxh3) (needle : Option Text) : List UInt64 :=
  (needle.map (queryEntries u xxh3)).getD []

variable {u : Tables} {xxh3 : Xxh3} {needle message token front back : Text}
  {msgs before after : List Text} {idx : ℕ} {p : Char → Bool}

theorem infix_of_matches (h : textMatches u (some needle) message) :
    needle <:+: u.toLowercase message := by
  rw [textMatches] at h
  split at h
  · rename_i hascii
    have hn : ∀ c ∈ needle, c.toNat < 0x80 := by
      intro c hc
      simpa using all_eq_true.mp hascii c hc
    exact u.infix_toLowercase hn (of_decide_eq_true h)
  · exact of_decide_eq_true h

theorem toLowercase_needle {text : Option Text} (h : needleOf u text = some needle) :
    u.toLowercase needle = needle := by
  obtain ⟨trimmed, -, rfl⟩ := Option.map_eq_some_iff.mp h
  exact u.toLowercase_idem trimmed

theorem foldl_insertEntry (new entries : List UInt64) (entry : UInt64) :
    entry ∈ new.foldl insertEntry entries ↔ entry ∈ entries ∨ entry ∈ new := by
  induction new generalizing entries with
  | nil => simp
  | cons e new ih =>
    have he : entry ∈ insertEntry entries e ↔ entry ∈ entries ∨ entry = e := by
      rw [insertEntry]
      split
      · refine ⟨.inl, fun h ↦ ?_⟩
        rcases h with h | rfl
        · exact h
        · assumption
      · simp
    rw [foldl_cons, ih, he, mem_cons, or_assoc]

theorem mem_entries (msgs : List Text) (entries : List UInt64) (entry : UInt64) :
    entry ∈ msgs.foldl (insertMessage u xxh3) entries ↔
      entry ∈ entries ∨ ∃ m ∈ msgs, entry ∈ messageEntries u xxh3 m := by
  induction msgs generalizing entries with
  | nil => simp
  | cons m msgs ih =>
    rw [foldl_cons, ih, insertMessage, foldl_insertEntry, or_assoc]
    simp

theorem mem_messageEntries {entry : UInt64} :
    entry ∈ messageEntries u xxh3 message ↔ ∃ t ∈ tokens u message,
      entry = hashToken xxh3 t ∨ ∃ g ∈ char3grams t, entry = hashGram xxh3 g := by
  simp only [messageEntries, mem_flatMap, mem_cons, mem_map, eq_comm]

theorem token_fieldAt (hsettled : u.toLowercase needle = needle)
    (h : (token, idx) ∈ (tokens u needle).zipIdx) :
    tokenLength token ∧ ∃ before after front back,
      FieldAt (isDelimiter u) needle front token before after back ∧
        (idx ≠ 0 → before ≠ []) ∧ (idx ≠ (tokens u needle).length - 1 → after ≠ []) := by
  obtain ⟨hlt, hget⟩ := mem_zipIdx' h
  have hsplit : tokens u needle = (tokens u needle).take idx ++ token ::
      (tokens u needle).drop (idx + 1) := by
    rw [hget, getElem_cons_drop, take_append_drop]
  have hfilter := hsplit
  rw [tokens, filter_eq_append_iff] at hfilter
  obtain ⟨l₁, l₂, hfields, hl₁, hl₂⟩ := hfilter
  rw [← tokens, filter_eq_cons_iff] at hl₂
  obtain ⟨m₁, m₂, rfl, -, hlen, hm₂⟩ := hl₂
  rw [fields, hsettled, ← append_assoc] at hfields
  obtain ⟨front, back, hat⟩ := fieldAt_of_splitOnP _ hfields
  refine ⟨hlen, _, _, front, back, hat, fun hidx hnil ↦ ?_, fun hidx hnil ↦ ?_⟩
  · rw [append_eq_nil_iff] at hnil
    rw [hnil.1] at hl₁
    have := congrArg List.length hl₁
    rw [filter_nil, ← tokens, length_take, length_nil] at this
    omega
  · rw [hnil] at hm₂
    have := congrArg List.length hm₂
    rw [filter_nil, length_drop, length_nil] at this
    omega

theorem front_closed (hat : FieldAt (isDelimiter u) needle front token before after back)
    (hne : token ≠ [])
    (hbefore : idx ≠ 0 → before ≠ []) (h : (!(idx == 0) || needle.head?.any (isDelimiter u))) :
    ClosedLeft (isDelimiter u) front := by
  apply hat.left
  intro hnil
  by_cases hidx : idx = 0
  · obtain ⟨c, token', rfl⟩ := exists_cons_of_ne_nil hne
    have hhead : needle.head? = some c := by
      rw [hat.split, hat.first hnil]
      rfl
    simp [hidx, hhead, hat.free c (by simp)] at h
  · exact hbefore hidx hnil

theorem back_closed {last : Bool}
    (hat : FieldAt (isDelimiter u) needle front token before after back) (hne : token ≠ [])
    (hafter : last = false → after ≠ []) (h : (!last || needle.getLast?.any (isDelimiter u))) :
    ClosedRight (isDelimiter u) back := by
  apply hat.right
  intro hnil
  cases last with
  | false => exact hafter rfl hnil
  | true =>
    have hlast : needle.getLast? = some (token.getLast hne) := by
      rw [hat.split, hat.last hnil, append_nil, List.getLast?_append_of_ne_nil _ hne,
        List.getLast?_eq_some_getLast hne]
    simp [hlast, hat.free _ (getLast_mem hne)] at h

theorem ClosedLeft.append_left {a : Text} (pre : Text) (h : ClosedLeft p a) :
    ClosedLeft p (pre ++ a) := by
  obtain ⟨a', d, rfl, hd⟩ := h
  exact ⟨pre ++ a', d, by simp, hd⟩

theorem ClosedRight.append_right {b : Text} (post : Text)
    (h : ClosedRight p b) : ClosedRight p (b ++ post) := by
  obtain ⟨d, b', rfl, hd⟩ := h
  exact ⟨d, b' ++ post, rfl, hd⟩

theorem interior_token (hsettled : u.toLowercase needle = needle)
    (hsub : needle <:+: u.toLowercase message) (h : (token, idx) ∈ (tokens u needle).zipIdx)
    (hinterior : ((!(idx == 0) || needle.head?.any (isDelimiter u)) &&
      (!(idx == (tokens u needle).length - 1) || needle.getLast?.any (isDelimiter u)))) :
    token ∈ tokens u message := by
  obtain ⟨hlen, before, after, front, back, hat, hbefore, hafter⟩ := token_fieldAt hsettled h
  rw [Bool.and_eq_true] at hinterior
  have hne : token ≠ [] := by
    rintro rfl
    cases hlen
  have hleft := front_closed hat hne hbefore hinterior.1
  have hright := back_closed hat hne (fun hlast ↦ hafter (by simpa using hlast)) hinterior.2
  obtain ⟨pre, post, hmsg⟩ := hsub
  rw [tokens, mem_filter]
  refine ⟨?_, hlen⟩
  have hwhole : u.toLowercase message = (pre ++ front) ++ token ++ (back ++ post) := by
    rw [← hmsg, hat.split]
    simp
  rw [fields, hwhole]
  exact mem_splitOnP hat.free (.inr (ClosedLeft.append_left pre hleft))
    (.inr (ClosedRight.append_right post hright))

/-- The condition on the indexed messages: every gram the needle asks for was indexed. -/
def GramsIndexed (u : Tables) (msgs : List Text) (needle : Text) : Prop :=
  ∀ t ∈ tokens u needle, ∀ g ∈ char3grams t, ∃ m ∈ msgs, ∃ t' ∈ tokens u m, g ∈ char3grams t'

theorem queryEntries_indexed (hsettled : u.toLowercase needle = needle) (hm : message ∈ msgs)
    (hsub : needle <:+: u.toLowercase message) (hgrams : GramsIndexed u msgs needle) :
    ∀ entry ∈ queryEntries u xxh3 needle, entry ∈ msgs.foldl (insertMessage u xxh3) [] := by
  intro entry hentry
  simp only [queryEntries, mem_flatMap] at hentry
  obtain ⟨⟨token, idx⟩, hzip, hentry⟩ := hentry
  rw [mem_entries]
  refine .inr ?_
  rcases mem_append.mp hentry with hgram | htoken
  · obtain ⟨g, hg, rfl⟩ := mem_map.mp hgram
    obtain ⟨m, hm', t, ht, hgt⟩ := hgrams token (fst_mem_of_mem_zipIdx hzip) g hg
    exact ⟨m, hm', mem_messageEntries.mpr ⟨t, ht, .inr ⟨g, hgt, rfl⟩⟩⟩
  · split at htoken
    · rename_i hinterior
      rw [mem_singleton] at htoken
      have ht := interior_token hsettled hsub hzip hinterior
      exact ⟨message, hm, mem_messageEntries.mpr ⟨token, ht, .inl htoken⟩⟩
    · cases htoken

theorem buildMessages_contains {entries : List UInt64}
    (h : ∀ entry ∈ entries, entry ∈ msgs.foldl (insertMessage u xxh3) []) :
    (buildMessages u xxh3 msgs).containsAll xxh3 entries = some true := by
  rw [Bloom.containsAll, allM_eq_some_true]
  intro entry hentry
  rw [buildMessages, build_contains]
  exact fun i hi ↦ ⟨entry, h entry hentry, i, hi, rfl⟩

def markA : UInt64 := 0xFFFFFFFFFFFFFFFF

def markB : UInt64 := 0xFFFFFFFFFFFFFFFE

/-- A hash function under which the gram `g` shares no bit with any other entry. Its values are no
UTF-8 texts, so the two uses of the hash do not meet. -/
def separating (g : Text) : Xxh3 := fun bytes seed ↦
  if bytes = encode g ∧ seed = gramSeed then markA
  else if bytes = le 8 markA.toNat then 1
  else if bytes = le 8 markB.toNat then 0
  else markB

theorem encode_ne_mark (text : Text) :
    encode text ≠ le 8 markA.toNat ∧ encode text ≠ le 8 markB.toNat := by
  have hno : ∀ bytes : Bytes, (255 : UInt8) ∈ bytes → encode text ≠ bytes := by
    intro bytes h255 he
    have := encode_lt text 255 (he ▸ h255)
    revert this
    decide
  exact ⟨hno _ (by decide), hno _ (by decide)⟩

theorem separating_token (g t : Text) : hashToken (separating g) t = markB := by
  obtain ⟨hA, hB⟩ := encode_ne_mark t
  have hseed : tokenSeed ≠ gramSeed := by decide
  simp [hashToken, separating, hA, hB, hseed]

theorem separating_other {g g' : Text} (h : g' ≠ g) : hashGram (separating g) g' = markB := by
  obtain ⟨hA, hB⟩ := encode_ne_mark g'
  have hne : encode g' ≠ encode g := fun he ↦ h (encode_injective he)
  simp [hashGram, separating, hA, hB, hne]

theorem separating_self (g : Text) : hashGram (separating g) g = markA := by
  simp [hashGram, separating]

theorem separating_index (g : Text) {bloom : Bloom} (h : 1024 ≤ bloom.nBits.toNat) (i : ℕ) :
    bloom.bitIndex (separating g) markA i = 1 ∧ bloom.bitIndex (separating g) markB i = 0 := by
  obtain ⟨hA, hB⟩ := encode_ne_mark g
  constructor
  · simp only [Bloom.bitIndex, separating, hA.symm, false_and]
    exact Nat.mod_eq_of_lt (Nat.lt_of_lt_of_le (by decide) h)
  · simp only [Bloom.bitIndex, separating, hB.symm]
    exact Nat.zero_mod _

theorem separating_missed {g : Text} (h : ∀ m ∈ msgs, ∀ t ∈ tokens u m, g ∉ char3grams t) :
    (buildMessages u (separating g) msgs).contains (separating g)
      (hashGram (separating g) g) ≠ some true := by
  rw [buildMessages, ne_eq, build_contains, separating_self]
  intro hall
  obtain ⟨entry, hentry, i, -, hidx⟩ := hall 0 (by omega)
  have hsize := sizeFor_bounds (msgs.foldl (insertMessage u (separating g)) []).length
  rw [(separating_index g hsize 0).1] at hidx
  have hB : entry = markB := by
    rcases (mem_entries msgs [] entry).mp hentry with hnil | ⟨m, hm, hentry⟩
    · cases hnil
    · obtain ⟨t, ht, rfl | ⟨g', hg', rfl⟩⟩ := mem_messageEntries.mp hentry
      · exact separating_token g t
      · exact separating_other fun he ↦ h m hm t ht (he ▸ hg')
  rw [hB, (separating_index g hsize i).2] at hidx
  cases hidx

/-- Whatever the hash function, the filter of a chunk passes the needle of every message it holds
exactly when the grams of the needle were all indexed. -/
theorem no_false_negative_iff (u : Tables) (msgs : List Text) (text : Option Text) :
    (∀ xxh3, (∃ m ∈ msgs, textMatches u (needleOf u text) m = true) →
      ∃ bloom, Bloom.fromBytes (buildMessages u xxh3 msgs).toBytes = .ok bloom ∧
        bloom.containsAll xxh3 (needleEntries u xxh3 (needleOf u text)) = some true) ↔
    ((∃ m ∈ msgs, textMatches u (needleOf u text) m = true) →
      ∀ needle, needleOf u text = some needle → GramsIndexed u msgs needle) := by
  constructor
  · intro h hmatch needle hneedle t ht g hg
    by_contra hmissing
    have hno : ∀ m ∈ msgs, ∀ t' ∈ tokens u m, g ∉ char3grams t' :=
      fun m hm t' ht' hg' ↦ hmissing ⟨m, hm, t', ht', hg'⟩
    obtain ⟨bloom, hbytes, hall⟩ := h (separating g) hmatch
    rw [buildMessages, build_bytes] at hbytes
    cases hbytes
    rw [hneedle, Bloom.containsAll, allM_eq_some_true] at hall
    refine separating_missed hno (hall _ ?_)
    obtain ⟨idx, hidx, hget⟩ := getElem_of_mem ht
    simp only [needleEntries, Option.map_some, Option.getD_some, queryEntries, mem_flatMap]
    refine ⟨(t, idx), ?_, ?_⟩
    · rw [← hget]
      exact mk_mem_zipIdx_iff_getElem?.mpr (List.getElem?_eq_getElem hidx)
    · exact mem_append_left _ (mem_map_of_mem hg)
  · intro h xxh3 hmatch
    refine ⟨_, build_bytes xxh3 _, buildMessages_contains ?_⟩
    cases hneedle : needleOf u text with
    | none => simp [needleEntries]
    | some needle =>
      obtain ⟨m, hm, hmm⟩ := id hmatch
      rw [hneedle] at hmm
      exact queryEntries_indexed (toLowercase_needle hneedle) hm (infix_of_matches hmm)
        (h hmatch needle hneedle)

theorem long_word_missed :
    ¬ ((∃ m ∈ [List.replicate 65 'a'],
        textMatches asciiTables (needleOf asciiTables (some "aaa".toList)) m = true) →
      ∃ bloom, Bloom.fromBytes (buildMessages asciiTables (fun _ seed ↦ seed)
          [List.replicate 65 'a']).toBytes = .ok bloom ∧
        bloom.containsAll (fun _ seed ↦ seed) (needleEntries asciiTables (fun _ seed ↦ seed)
          (needleOf asciiTables (some "aaa".toList))) = some true) := by
  intro h
  obtain ⟨bloom, hbytes, hall⟩ := h ⟨_, mem_singleton_self _, by decide⟩
  rw [buildMessages, build_bytes] at hbytes
  cases hbytes
  revert hall
  decide

end Temps.LogAggregator.Store.TextFilter
