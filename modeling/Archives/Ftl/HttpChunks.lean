import Archives.Ftl.Model.Http
/-!
# FTL — feeding a request in chunks

The header section is parsed line by line, so it does not matter how the
lines arrive (`scan_append`). The body is different: its start in a chunk
is computed from the length of the lines handled, and this is its start
only if no line had begun in an earlier chunk. `feed_eq_answers_iff` shows
that this is all that can go wrong.
-/

namespace Archives.Ftl.Http

open List Call Nat Prod Lines

/-! ## Scanning lines -/

/-- How far complete lines take the parser. -/
inductive Progress
  | failed (e : Error)
  | more (s : State)
  /-- The header section has ended; these lines come after it. -/
  | ended (head : Head) (rest : List Text)
  deriving DecidableEq

/-- What the parser does with complete lines, from a state that is not
that of a body. -/
def scan : State → List Text → Progress
  | s, [] => .more s
  | .startLine, line :: lines =>
    match parseStartLine line with
    | .error e => .failed e
    | .ok head => scan (.headers head) lines
  | .headers head, line :: lines =>
    if line = crlf then .ended head lines
    else
      match parseHeader head.headers line with
      | .error e => .failed e
      | .ok headers => scan (.headers { head with headers := headers }) lines
  | .body head n, _ :: _ => .more (.body head n)

/-- **In pieces or at once.** -/
theorem scan_append (s : State) (a b : List Text) : scan s (a ++ b) = match scan s a with
      | .failed e => .failed e
      | .more s' => scan s' b
      | .ended head rest => .ended head (rest ++ b) := by
  induction a generalizing s with
  | nil => cases b <;> simp [scan]
  | cons line a ih =>
    cases s with
    | startLine =>
      simp only [cons_append, scan]
      split
      · rfl
      · exact ih _
    | headers head =>
      simp only [cons_append, scan]
      split
      · rfl
      · split
        · rfl
        · exact ih _
    | body head n =>
      cases b <;> simp [scan]

/-- The lines of the header section, if it ends: the last is empty, and
none before it. -/
theorem scan_ended {s : State} {lines rest : List Text} {head : Head}
    (h : scan s lines = .ended head rest) :
    ∃ before, lines = before ++ crlf :: rest ∧ scan s before = .more (.headers head) ∧
      (s = .startLine → before ≠ []) ∧ ∀ line ∈ before, line ≠ crlf := by
  induction lines generalizing s with
  | nil => simp [scan] at h
  | cons line lines ih =>
    cases s with
    | startLine =>
      simp only [scan] at h
      split at h
      · cases h
      next head' hstart =>
        obtain ⟨before, rfl, hscan, -, hbefore⟩ := ih h
        refine ⟨line :: before, rfl, by simp only [scan, hstart, hscan], by simp, ?_⟩
        intro l hl
        rcases mem_cons.1 hl with rfl | hl
        · -- the empty line is no start line
          rintro rfl
          simp [parseStartLine, trimAsciiEnd, crlf, splitOnce, rdropWhile,
            isAsciiWhitespace] at hstart
        · exact hbefore l hl
    | headers head' =>
      simp only [scan] at h
      split at h
      next hline =>
        cases h
        exact ⟨[], by rw [hline]; rfl, rfl, by simp, by simp⟩
      next hline =>
        split at h
        · cases h
        next headers hheader =>
          obtain ⟨before, rfl, hscan, -, hbefore⟩ := ih h
          refine ⟨line :: before, rfl, by simp only [scan, hline, if_false, hheader, hscan],
            by simp, forall_mem_cons.2 ⟨hline, hbefore⟩⟩
    | body head' n => simp [scan] at h

/-! ## The loop over the lines -/

variable (s : Text)

/-- The complete lines of a text. -/
def lines : List Text := (cut '\r' '\n' s).1

/-- What is left over after them. -/
def leftover : Text := (cut '\r' '\n' s).2

theorem crlf_suffix_of_mem_lines {s line : Text} (h : line ∈ lines s) : crlf <:+ line :=
  suffix_of_mem_cut h

theorem flatten_lines : (lines s).flatten ++ leftover s = s := flatten_cut s

theorem drop_lines : s.drop (lines s).flatten.length = leftover s := by
  have h : ((lines s).flatten ++ leftover s).drop (lines s).flatten.length = leftover s :=
    drop_left
  rwa [flatten_lines] at h

theorem lines_append (a b : Text) : lines (a ++ b) = lines a ++ lines (leftover a ++ b) :=
  congrArg fst (cut_append a b)

theorem leftover_append (a b : Text) : leftover (a ++ b) = leftover (leftover a ++ b) := by
  rw [leftover, cut_append]
  rfl

theorem leftover_eq_nil_iff : leftover s = [] ↔ s = [] ∨ crlf <:+ s :=
  left_eq_nil_iff (by decide) s

/-- The loop stops at the unterminated line, if there is one. -/
theorem run_parseLines_leftover (chunk buf s : Text) (n : Nat) (p : RequestParser) :
    (parseLines chunk buf (if leftover s = [] then [] else [leftover s]) n).run p =
      .ok (.ok none, { p with headersBuf := buf.drop n }) := by
  split
  · rfl
  · have hnot : ¬ crlf <:+ leftover s := not_suffix_left (by decide) s
    simp [parseLines, hnot, run_bind]

variable {chunk buf a c : Text} {ls tail : List Text} {s s' : State} {n : Nat} {hb bb : Text}
  {head : Head}

/-- The parser is not reading a body. -/
def State.inHeaders : State → Bool
  | .body _ _ => false
  | _ => true

/-- After a line the parser is in the headers. -/
theorem scan_more (hs : s.inHeaders = true) (h : scan s ls = .more s') :
    (ls = [] ∧ s' = s) ∨ ∃ head, s' = .headers head := by
  induction ls generalizing s with
  | nil =>
    simp only [scan, Progress.more.injEq] at h
    exact .inl ⟨rfl, h.symm⟩
  | cons line ls ih =>
    have hrest : ∀ head, scan (.headers head) ls = .more s' → ∃ head, s' = .headers head :=
      fun head h => (ih rfl h).elim (fun hnil => ⟨head, hnil.2⟩) id
    cases s with
    | startLine =>
      simp only [scan] at h
      split at h
      · cases h
      · exact .inr (hrest _ h)
    | headers head =>
      simp only [scan] at h
      split at h
      · cases h
      · split at h
        · cases h
        · exact .inr (hrest _ h)
    | body head n => cases hs

theorem inHeaders_of_scan (hs : s.inHeaders = true) (h : scan s ls = .more s') :
    s'.inHeaders = true := by
  obtain ⟨-, rfl⟩ | ⟨head, rfl⟩ := scan_more hs h
  · exact hs
  · rfl

/-- What a scan reaches, its first part reaches without an error or an
end. -/
theorem scan_more_left {a b : List Text} (h : scan s (a ++ b) = .more s') :
    ∃ t, scan s a = .more t ∧ scan t b = .more s' := by
  rw [scan_append] at h
  split at h
  · cases h
  next t ht => exact ⟨t, ht, h⟩
  · cases h

/-- What the loop does with a complete line. -/
theorem run_parseLines_cons {line : Text} (hs : s.inHeaders = true) (hline : crlf <:+ line) :
    (parseLines chunk buf (line :: ls) n).run ⟨hb, bb, s⟩ = match scan s [line] with
      | .failed e => .ok (.error e, ⟨hb, bb, s⟩)
      | .more s' => (parseLines chunk buf ls (n + line.length)).run ⟨hb, bb, s'⟩
      | .ended head _ => (endHeaders chunk (n + line.length) head).run ⟨hb, bb, s⟩ := by
  cases s with
  | startLine =>
    rcases hstart : parseStartLine line with e | head
    · simp [scan, parseLines, hline, run_bind, hstart]
    · simp [scan, parseLines, hline, run_bind, hstart]
  | headers head =>
    by_cases hblank : line = crlf
    · simp [scan, parseLines, run_bind, hblank]
    rcases hheader : parseHeader head.headers line with e | headers
    · simp [scan, parseLines, hline, run_bind, hblank, hheader]
    · simp [scan, parseLines, hline, run_bind, hblank, hheader]
  | body head n => cases hs

/-- **The loop follows the scan**, over complete lines that do not end
the header section. By induction on the lines. -/
theorem run_parseLines_more (hs : s.inHeaders = true) (hls : ∀ line ∈ ls, crlf <:+ line)
    (h : scan s ls = .more s') : (parseLines chunk buf (ls ++ tail) n).run ⟨hb, bb, s⟩ =
      (parseLines chunk buf tail (n + ls.flatten.length)).run ⟨hb, bb, s'⟩ := by
  induction ls generalizing s n with
  | nil =>
    simp only [scan, Progress.more.injEq] at h
    subst h
    rfl
  | cons line ls ih =>
    obtain ⟨t, ht, hrest⟩ := scan_more_left (a := [line]) h
    rw [cons_append, run_parseLines_cons hs (hls line mem_cons_self), ht]
    simp only
    rw [ih (inHeaders_of_scan hs ht) (forall_mem_of_forall_mem_cons hls) hrest, flatten_cons,
      length_append, Nat.add_assoc]

/-- At the empty line the header section ends. -/
theorem run_parseLines_ended (hs : s.inHeaders = true) (hls : ∀ line ∈ ls, crlf <:+ line)
    (h : scan s ls = .more (.headers head)) :
    (parseLines chunk buf (ls ++ crlf :: tail) n).run ⟨hb, bb, s⟩ =
      (endHeaders chunk (n + (ls ++ [crlf]).flatten.length) head).run ⟨hb, bb, .headers head⟩ := by
  have hlen : n + (ls ++ [crlf]).flatten.length = n + ls.flatten.length + crlf.length := by
    simp [Nat.add_assoc]
  rw [run_parseLines_more hs hls h, hlen]
  simp [parseLines, run_bind]

/-! ## One chunk -/

/-- The parser between two chunks of a header section: `a` is what it was
fed so far. -/
def waiting (a : Text) (s : State) : RequestParser where
  headersBuf := leftover a
  bodyBuf := []
  state := s

/-- A chunk in the header section is handed to the loop. -/
theorem run_parseChunk (a c : Text) (hs : s.inHeaders = true)
    (hsize : (leftover a).length + c.length ≤ maxHeadersSize) : (parseChunk c).run (waiting a s) =
      (parseLines c (leftover a ++ c) (splitInclusive (leftover a ++ c)) 0).run ⟨[], [], s⟩ := by
  have hnot : ¬ maxHeadersSize < (leftover a).length + c.length := not_lt.2 hsize
  cases s with
  | startLine => simp [parseChunk, run_bind, waiting, hnot]
  | headers head => simp [parseChunk, run_bind, waiting, hnot]
  | body head n => cases hs

/-- **A chunk before the end of the header section** is answered with
`Ok(None)`, and the lines it completes are handled. -/
theorem run_parseChunk_more (hs : s.inHeaders = true)
    (hsize : (leftover a).length + c.length ≤ maxHeadersSize)
    (h : scan s (lines (leftover a ++ c)) = .more s') :
    (parseChunk c).run (waiting a s) = .ok (.ok none, waiting (a ++ c) s') := by
  have hsplit : splitInclusive (leftover a ++ c) = lines (leftover a ++ c) ++
      if leftover (leftover a ++ c) = [] then [] else [leftover (leftover a ++ c)] := rfl
  rw [run_parseChunk a c hs hsize, hsplit,
    run_parseLines_more hs (fun line hl => crlf_suffix_of_mem_lines hl) h,
    run_parseLines_leftover, Nat.zero_add, drop_lines, ← leftover_append]
  rfl

/-- The chunk with the end of the header section. -/
theorem run_parseChunk_ended {before rest : List Text} (hs : s.inHeaders = true)
    (hsize : (leftover a).length + c.length ≤ maxHeadersSize)
    (hlines : lines (leftover a ++ c) = before ++ crlf :: rest)
    (h : scan s before = .more (.headers head)) : (parseChunk c).run (waiting a s) =
      (endHeaders c (before ++ [crlf]).flatten.length head).run ⟨[], [], .headers head⟩ := by
  have hsplit : splitInclusive (leftover a ++ c) = before ++ crlf :: (rest ++
      if leftover (leftover a ++ c) = [] then [] else [leftover (leftover a ++ c)]) := by
    rw [← cons_append, ← append_assoc, ← hlines]
    rfl
  have hbefore : ∀ line ∈ before, crlf <:+ line := by
    intro line hl
    refine crlf_suffix_of_mem_lines (s := leftover a ++ c) ?_
    rw [hlines]
    exact mem_append_left _ hl
  rw [run_parseChunk a c hs hsize, hsplit, run_parseLines_ended hs hbefore h, Nat.zero_add]

/-- A line that is no good ends in an error. -/
theorem run_parseLines_failed (chunk buf : Text) (tail : List Text) (n : Nat) (hb bb : Text)
    {e : Error} (hs : s.inHeaders = true) (hls : ∀ line ∈ ls, crlf <:+ line)
    (h : scan s ls = .failed e) :
    ∃ p, (parseLines chunk buf (ls ++ tail) n).run ⟨hb, bb, s⟩ = .ok (.error e, p) := by
  induction ls generalizing s n with
  | nil => cases h
  | cons line ls ih =>
    rw [← singleton_append, scan_append] at h
    rw [cons_append, run_parseLines_cons hs (hls line mem_cons_self)]
    split at h
    next => exact ⟨_, by rw [Progress.failed.inj h]⟩
    next t ht => exact ih _ (inHeaders_of_scan hs ht) (forall_mem_of_forall_mem_cons hls) h
    next => cases h

/-! ## The end of the headers and the body -/

/-- The headers allow a body of `n` bytes. -/
structure Allows (head : Head) (n : Nat) : Prop where
  notChunked : isChunked head.headers = false
  length : contentLength head.headers = n
  le : n ≤ maxBodySize

variable {p : RequestParser} {request : Request} {consumed : Nat} {b : Text}

theorem run_endHeaders_of_zero (h : Allows head 0) :
    (endHeaders chunk consumed head).run ⟨[], [], s⟩ =
      .ok (.ok (some { head := head, body := [] }), .new) := by
  simp [endHeaders, run_bind, h.notChunked, h.length, reset]

/-- Where the slice starts after the end of the chunk, the parser
panics. -/
theorem run_endHeaders_of_lt (h : Allows head n) (hn : n ≠ 0) (hlt : chunk.length < consumed) :
    (endHeaders chunk consumed head).run ⟨[], [], s⟩ = .error .outOfRange := by
  simp [endHeaders, run_bind, h.notChunked, h.length, hn, hlt, not_lt.2 h.le]

/-- Otherwise what follows in the chunk is the body, or its start. -/
theorem run_endHeaders_of_le (h : Allows head n) (hn : n ≠ 0) (hle : consumed ≤ chunk.length) :
    (endHeaders chunk consumed head).run ⟨[], [], s⟩ =
      if ((chunk.drop consumed).take n).length = n then
        .ok (.ok (some { head := head, body := (chunk.drop consumed).take n }), .new)
      else .ok (.ok none, ⟨[], (chunk.drop consumed).take n, .body head n⟩) := by
  simp only [endHeaders, run_bind, run_update, run_ite, h.notChunked, h.length, hn,
    not_lt.2 h.le, not_lt.2 hle, if_false, Bool.false_eq_true, run_state,
    nil_append, run_pure, reset]

/-- A request that is accepted was allowed. -/
theorem allows_of_run_endHeaders
    (h : (endHeaders chunk consumed head).run ⟨[], [], s⟩ = .ok (.ok (some request), p)) :
    Allows head (contentLength head.headers) := by
  by_cases hchunked : isChunked head.headers = true
  · simp [endHeaders, run_bind, hchunked] at h
  by_cases hle : maxBodySize < contentLength head.headers
  · simp [endHeaders, run_bind, hchunked, hle] at h
  · exact ⟨by simpa using hchunked, rfl, not_lt.1 hle⟩

/-- A chunk while the body is read. -/
theorem run_parseChunk_body (head : Head) (hle : n ≤ maxBodySize) (hb : b.length + c.length ≤ n) :
    (parseChunk c).run ⟨[], b, .body head n⟩ =
      if (b ++ c).length = n then .ok (.ok (some { head := head, body := b ++ c }), .new)
      else .ok (.ok none, ⟨[], b ++ c, .body head n⟩) := by
  have htake : min c.length (n - b.length) = c.length := by omega
  have hnot : ¬ maxBodySize < b.length + c.length := by omega
  simp only [parseChunk, parseBody, run_bind, run_state, run_ite, htake, hnot,
    if_false, run_update, run_pure, take_length, reset]

variable (chunks : List Text)

/-- What follows the answer to one chunk. -/
def feedAfter (answer : Except Panic (Except Error (Option Request) × RequestParser)) :
    Except Panic (List (Except Error (Option Request))) :=
  answer.bind fun x => (feed x.2 chunks).map (x.1 :: ·)

theorem feed_cons (c : Text) (chunks : List Text) (p : RequestParser) :
    feed p (c :: chunks) = feedAfter chunks ((parseChunk c).run p) := by
  rw [feed]
  rcases (parseChunk c).run p with x | ⟨r, p⟩ <;> rfl

@[simp]
theorem feedAfter_ok (r : Except Error (Option Request))
    (p : RequestParser) : feedAfter chunks (.ok (r, p)) = (feed p chunks).map (r :: ·) := rfl

/-- A body that stays too short is never answered. -/
theorem feed_body_of_lt (hle : n ≤ maxBodySize) (hlt : b.length + chunks.flatten.length < n) :
    feed ⟨[], b, .body head n⟩ chunks = .ok (.replicate chunks.length (.ok none)) := by
  induction chunks generalizing b with
  | nil => rfl
  | cons c chunks ih =>
    rw [flatten_cons, length_append] at hlt
    have hne : ¬ (b ++ c).length = n := by
      rw [length_append]
      omega
    rw [feed_cons, run_parseChunk_body head hle (by omega), if_neg hne, feedAfter_ok,
      ih (by rw [length_append]; omega)]
    rfl

theorem answers_cons {m : Nat} (hm : m ≠ 0) :
    answers (m + 1) request = .ok none :: answers m request := by
  obtain ⟨m, rfl⟩ := exists_eq_succ_of_ne_zero hm
  rfl

/-- **The body arrives**: the last chunk completes it, and no other. -/
theorem feed_body_of_eq (hle : n ≤ maxBodySize) (hlt : b.length < n)
    (heq : b.length + chunks.flatten.length = n) (hne : ∀ c ∈ chunks, c ≠ []) :
    feed ⟨[], b, .body head n⟩ chunks =
      .ok (answers chunks.length { head := head, body := b ++ chunks.flatten }) := by
  induction chunks generalizing b with
  | nil =>
    simp only [flatten_nil, length_nil] at heq
    omega
  | cons c chunks ih =>
    rw [flatten_cons, length_append] at heq
    have hrun := run_parseChunk_body head hle (by omega : b.length + c.length ≤ n)
    rw [feed_cons, hrun]
    cases chunks with
    | nil =>
      have hlen : (b ++ c).length = n := by
        simpa using heq
      rw [if_pos hlen]
      simp [feed, Except.map, answers]
    | cons c' chunks =>
      have hpos : 0 < (c' :: chunks).flatten.length := by
        rw [flatten_cons, length_append]
        have := length_pos_iff.2 (hne c' (by simp))
        omega
      have hlen : ¬ (b ++ c).length = n := by
        rw [length_append]
        omega
      rw [if_neg hlen, feedAfter_ok, ih (by rw [length_append]; omega) (by rw [length_append]; omega)
        fun x hx => hne x (mem_cons_of_mem _ hx), append_assoc, ← flatten_cons]
      exact congrArg Except.ok (answers_cons (succ_ne_zero _)).symm

/-! ## The header section in chunks -/

theorem length_leftover_append_le (a c : Text) :
    (leftover (a ++ c)).length ≤ (leftover a).length + c.length := by
  have h := congrArg length (flatten_lines (leftover a ++ c))
  rw [leftover_append]
  simp only [length_append] at h
  omega

/-- **Chunks before the end of the header section** are answered with
`Ok(None)`. By induction on the chunks. -/
theorem feed_more (before rest : List Text) (hs : s.inHeaders = true)
    (hsize : (leftover a).length + before.flatten.length ≤ maxHeadersSize)
    (h : scan s (lines (leftover a ++ before.flatten)) = .more s') :
    feed (waiting a s) (before ++ rest) = (feed (waiting (a ++ before.flatten) s') rest).map
        (.replicate before.length (.ok none) ++ ·) := by
  induction before generalizing a s with
  | nil =>
    have hopen : lines (leftover a) = [] := congrArg fst (open_cut '\r' '\n' a)
    simp only [flatten_nil, append_nil, hopen, scan, Progress.more.injEq] at h ⊢
    subst h
    rw [nil_append]
    cases feed (waiting a s) rest <;> rfl
  | cons c before ih =>
    rw [flatten_cons, length_append] at hsize
    rw [flatten_cons, ← append_assoc, lines_append, ← leftover_append] at h
    obtain ⟨t, ht, hrest⟩ := scan_more_left h
    have hleft := length_leftover_append_le a c
    rw [cons_append, feed_cons, run_parseChunk_more hs (by omega) ht, feedAfter_ok,
      ih (inHeaders_of_scan hs ht) (by omega) hrest, flatten_cons, append_assoc]
    cases feed (waiting (a ++ (c ++ before.flatten)) s') rest <;> rfl

/-! ## Where the header section ends -/

variable {input header : Text} {before rest : List Text}

/-- The header section by its lines. -/
structure HeaderLines (input : Text) (head : Head) (before rest : List Text) : Prop where
  lines_eq : lines input = before ++ crlf :: rest
  scan_eq : scan .startLine before = .more (.headers head)

theorem HeaderLines.of_scan (h : scan .startLine (lines input) = .ended head rest) :
    ∃ before, HeaderLines input head before rest ∧ before ≠ [] := by
  obtain ⟨before, hlines, hscan, hne, -⟩ := scan_ended h
  exact ⟨before, ⟨hlines, hscan⟩, hne rfl⟩

section

variable (h : HeaderLines input head before rest)

include h

theorem HeaderLines.scan_lines : scan .startLine (lines input) = .ended head rest := by
  rw [h.lines_eq, scan_append, h.scan_eq]
  simp [scan]

/-- The lines of the header section are lines of its own. -/
theorem HeaderLines.lines_flatten : lines (before ++ [crlf]).flatten = before ++ [crlf] ∧
      leftover (before ++ [crlf]).flatten = [] := by
  have hcut : cut '\r' '\n' (before ++ [crlf]).flatten = (before ++ [crlf], []) := by
    refine cut_flatten (s := input) ⟨rest, ?_⟩
    rw [append_assoc]
    exact h.lines_eq.symm
  exact ⟨congrArg fst hcut, congrArg snd hcut⟩

/-- The header section and what follows it. -/
theorem HeaderLines.eq_append :
    input = (before ++ [crlf]).flatten ++ (rest.flatten ++ leftover input) := by
  conv_lhs => rw [← flatten_lines input, h.lines_eq]
  simp

/-- **Before its last byte the header section has not ended.** -/
theorem HeaderLines.scan_of_lt (hab : input = a ++ b)
    (hlt : a.length < (before ++ [crlf]).flatten.length) :
    ∃ t, scan .startLine (lines a) = .more t := by
  have hall := h.scan_lines
  rw [hab, lines_append, scan_append] at hall
  split at hall
  · cases hall
  next t ht => exact ⟨t, ht⟩
  next head' rest' hended =>
    -- it would have ended with the same lines
    simp only [Progress.ended.injEq] at hall
    obtain ⟨before', hlines', -⟩ := scan_ended hended
    have hboth : before ++ crlf :: rest = before' ++ crlf :: rest := by
      rw [← h.lines_eq, hab, lines_append, hlines', ← hall.2]
      simp
    obtain rfl : before = before' := append_cancel_right hboth
    have hlen := congrArg length (flatten_lines a)
    rw [hlines'] at hlen
    simp only [flatten_append, flatten_cons, length_append, flatten_nil, length_nil] at hlen hlt
    omega

/-- From its last byte on it has. -/
theorem HeaderLines.lines_of_le (hab : input = a ++ b)
    (hle : (before ++ [crlf]).flatten.length ≤ a.length) :
    ∃ rest', lines a = before ++ crlf :: rest' := by
  obtain ⟨c, rfl⟩ : (before ++ [crlf]).flatten <+: a :=
    prefix_of_prefix_length_le ⟨_, h.eq_append.symm⟩ ⟨b, hab.symm⟩ hle
  rw [lines_append, h.lines_flatten.1]
  exact ⟨_, by rw [append_assoc]; rfl⟩

omit h in
/-- A text that ends with an empty line, after some line, does not end
within the header section. -/
theorem not_scan_more_of_blank (h : crlf ++ crlf <:+ a) : scan .startLine (lines a) ≠ .more s' := by
  intro hm
  obtain ⟨q, rfl⟩ := h
  rw [← append_assoc] at hm
  have hq : leftover (q ++ crlf) = [] := (leftover_eq_nil_iff _).2 (.inr ⟨q, rfl⟩)
  have hblank : lines (leftover (q ++ crlf) ++ crlf) = [crlf] := by
    rw [hq]
    rfl
  have hne : lines (q ++ crlf) ≠ [] := by
    intro hnil
    have := flatten_lines (q ++ crlf)
    rw [hnil, hq] at this
    simp [crlf] at this
  rw [lines_append, hblank] at hm
  obtain ⟨t, ht, hlast⟩ := scan_more_left hm
  obtain ⟨h, rfl⟩ := (scan_more rfl ht).resolve_left fun hnil => hne hnil.1
  simp [scan] at hlast

/-- **The header section of the text is that of the parser.** -/
theorem HeaderLines.eq_header (hne : before ≠ []) (hh : IsHeaderSection input header) :
    header = (before ++ [crlf]).flatten := by
  have hprefix : (before ++ [crlf]).flatten <+: input := ⟨_, h.eq_append.symm⟩
  have hblank : crlf ++ crlf <:+ (before ++ [crlf]).flatten := by
    obtain ⟨init, last, rfl⟩ := (eq_nil_or_concat' before).resolve_left hne
    obtain ⟨pre, hpre⟩ : crlf <:+ last := by
      refine crlf_suffix_of_mem_lines (s := input) ?_
      rw [h.lines_eq]
      simp
    exact ⟨init.flatten ++ pre, by rw [← hpre]; simp⟩
  have hle := hh.shortest _ hprefix hblank
  obtain ⟨b, hb⟩ := hh.initial
  by_cases hlt : header.length < (before ++ [crlf]).flatten.length
  · obtain ⟨t, ht⟩ := h.scan_of_lt hb.symm hlt
    exact absurd ht (not_scan_more_of_blank hh.blank)
  · exact (prefix_of_prefix_length_le hh.initial hprefix hle).eq_of_length (by omega)

/-! ## One chunk for the whole request -/

omit h in
/-- A request accepted as a single chunk has a header section. -/
theorem headerLines_of_run (hsize : input.length ≤ maxHeadersSize)
    (h : (parseChunk input).run .new = .ok (.ok (some request), p)) :
    ∃ head before rest, HeaderLines input head before rest ∧ before ≠ [] ∧
      (endHeaders input (before ++ [crlf]).flatten.length head).run ⟨[], [], .headers head⟩ =
        .ok (.ok (some request), p) := by
  have hnew : .new = waiting [] .startLine := rfl
  have hsize' : (leftover []).length + input.length ≤ maxHeadersSize := by
    rw [show leftover [] = [] from rfl, length_nil, Nat.zero_add]
    exact hsize
  have hinput : leftover [] ++ input = input := rfl
  rw [hnew] at h
  rcases hscan : scan .startLine (lines input) with e | s' | ⟨head, rest⟩
  · obtain ⟨p', hp'⟩ := run_parseLines_failed input (leftover [] ++ input)
      (if leftover input = [] then [] else [leftover input]) 0 [] [] rfl
      (fun line hl => crlf_suffix_of_mem_lines hl) hscan
    rw [run_parseChunk [] input rfl hsize'] at h
    exact absurd (h.symm.trans hp') (by simp)
  · rw [run_parseChunk_more rfl hsize' (by rw [hinput]; exact hscan)] at h
    simp at h
  · obtain ⟨before, hlines, hne⟩ := HeaderLines.of_scan hscan
    refine ⟨head, before, rest, hlines, hne, ?_⟩
    rw [← run_parseChunk_ended rfl hsize' (by rw [hinput]; exact hlines.lines_eq) hlines.scan_eq]
    exact h

omit h in
/-- Its body is what follows the header section, when nothing else
does. -/
theorem body_of_run_endHeaders {h : Nat} (hle : h ≤ input.length)
    (hrun : (endHeaders input h head).run ⟨[], [], s⟩ = .ok (.ok (some request), p))
    (hexact : input.length = h + request.body.length) :
    request = { head := head, body := input.drop h } ∧ Allows head request.body.length := by
  have hallows := allows_of_run_endHeaders hrun
  by_cases hn : contentLength head.headers = 0
  · rw [hn] at hallows
    rw [run_endHeaders_of_zero hallows] at hrun
    obtain ⟨rfl, -⟩ := hrun
    refine ⟨?_, hallows⟩
    rw [length_nil] at hexact
    rw [drop_of_length_le (by omega)]
  · rw [run_endHeaders_of_le hallows hn hle] at hrun
    split at hrun
    next hlen =>
      obtain ⟨rfl, -⟩ := hrun
      simp only [hlen] at hexact
      refine ⟨?_, by simpa only [hlen] using hallows⟩
      rw [take_of_length_le (by rw [length_drop]; omega)]
    next => simp at hrun

/-! ## The chunk with the end of the header section -/

omit h in
/-- There is a chunk with the byte at any place. -/
theorem exists_chunk {m : Nat} (hpos : 0 < m) (hle : m ≤ chunks.flatten.length) :
    ∃ before c after, chunks = before ++ c :: after ∧ before.flatten.length < m ∧
      m ≤ before.flatten.length + c.length := by
  induction chunks generalizing m with
  | nil => simp at hle; omega
  | cons c chunks ih =>
    rw [flatten_cons, length_append] at hle
    by_cases hc : m ≤ c.length
    · exact ⟨[], c, chunks, rfl, by simpa using hpos, by simpa using hc⟩
    · obtain ⟨before, c', after, rfl, hlt, hge⟩ := ih (m := m - c.length) (by omega) (by omega)
      refine ⟨c :: before, c', after, rfl, ?_, ?_⟩ <;>
        · rw [flatten_cons, length_append]
          omega

/-- The parser at that chunk: the lines it completes, and how many bytes
it counts for them. -/
theorem HeaderLines.split {d : Text} {t : State} (hacd : input = a ++ (c ++ d))
    (ht : scan .startLine (lines a) = .more t)
    (hle : (before ++ [crlf]).flatten.length ≤ (a ++ c).length) :
    ∃ mid rest', lines (leftover a ++ c) = mid ++ crlf :: rest' ∧
      scan t mid = .more (.headers head) ∧ (mid ++ [crlf]).flatten.length + a.length =
        (before ++ [crlf]).flatten.length + (leftover a).length := by
  obtain ⟨rest', hrest'⟩ := h.lines_of_le (a := a ++ c) (b := d) (by rw [hacd]; simp) hle
  rw [lines_append] at hrest'
  have ha := congrArg length (flatten_lines a)
  rcases append_eq_append_iff.1 hrest' with ⟨mid, hmid, hX⟩ | ⟨ys, hys, hX⟩
  · have hscan := h.scan_eq
    rw [hmid, scan_append, ht] at hscan
    refine ⟨mid, rest', hX, hscan, ?_⟩
    rw [hmid]
    simp only [flatten_append, length_append] at *
    omega
  · cases ys with
    | nil =>
      rw [append_nil] at hys
      have hscan := h.scan_eq
      rw [← hys, ht, Progress.more.injEq] at hscan
      refine ⟨[], rest', hX.symm, by rw [hscan]; rfl, ?_⟩
      rw [hys] at ha
      simp only [flatten_append, length_append, nil_append] at *
      omega
    | cons y ys =>
      -- the header section would have ended before this chunk
      rw [cons_append, cons.injEq] at hX
      rw [hys, ← hX.1, scan_append, h.scan_eq] at ht
      simp [scan] at ht

end

section Split

variable {body : Text} {bs after : List Text} {c : Text}

/-- **The chunks up to the end of the header section.** The bytes counted
at the empty line include what the earlier chunks left over. -/
theorem feed_end (h : HeaderLines input head before rest)
    (hheader : header = (before ++ [crlf]).flatten) (hsize : input.length ≤ maxHeadersSize)
    (hsplit : (bs ++ c :: after).flatten = input) (hlt : bs.flatten.length < header.length)
    (hge : header.length ≤ bs.flatten.length + c.length) :
    ∃ consumed, consumed + bs.flatten.length = header.length + (leftover bs.flatten).length ∧
      feed .new (bs ++ c :: after) =
        (feedAfter after ((endHeaders c consumed head).run ⟨[], [], .headers head⟩)).map
          (replicate bs.length (.ok none) ++ ·) := by
  subst hheader
  have hinput : input = bs.flatten ++ (c ++ after.flatten) := by
    rw [← hsplit, flatten_append, flatten_cons]
  have hlen := congrArg length hinput
  simp only [length_append] at hlen
  obtain ⟨t, ht⟩ := h.scan_of_lt hinput hlt
  obtain ⟨mid, rest', hlines, hmid, hcount⟩ :=
    h.split hinput ht (by rw [length_append]; exact hge)
  have hleft := congrArg length (flatten_lines bs.flatten)
  rw [length_append] at hleft
  have hmore := feed_more (a := []) bs (c :: after) (s := .startLine) rfl
    (by show 0 + _ ≤ _; omega) ht
  refine ⟨_, hcount, ?_⟩
  rw [nil_append] at hmore
  rw [show .new = waiting [] .startLine from rfl, hmore, feed_cons,
    run_parseChunk_ended (inHeaders_of_scan rfl ht) (by omega) hlines hmid]

/-- The body is what follows the header section in its last chunk, and
the chunks after it. -/
theorem drop_append_flatten (hbody : (bs ++ c :: after).flatten = header ++ body)
    (hlt : bs.flatten.length < header.length) (hge : header.length ≤ bs.flatten.length + c.length) :
    c.drop (header.length - bs.flatten.length) ++ after.flatten = body := by
  have hdrop := congrArg (drop header.length) hbody
  rw [drop_left, flatten_append, flatten_cons, drop_append,
    drop_append_of_le_length (by omega), drop_eq_nil_of_le hlt.le,
    nil_append] at hdrop
  exact hdrop

theorem eq_nil_of_flatten (hne : ∀ x ∈ after, x ≠ []) (hflat : after.flatten = []) : after = [] :=
  eq_nil_iff_forall_not_mem.2 fun x hx => hne x hx (flatten_eq_nil_iff.1 hflat x hx)

theorem replicate_append_answers {m k : Nat} (hk : k ≠ 0) :
    .replicate m (.ok none) ++ answers k request = answers (m + k) request := by
  rw [answers, answers, ← append_assoc, replicate_append_replicate,
    show m + (k - 1) = m + k - 1 by omega]

theorem answers_ne_replicate (m k : Nat) (request : Request) :
    answers m request ≠ replicate k (.ok none) := by
  intro heq
  have hmem : (.ok (some request) : Except Error (Option Request)) ∈ replicate k (.ok none) := by
    rw [← heq]
    exact mem_append_right _ mem_cons_self
  simpa using (mem_replicate.1 hmem).2

variable (h : HeaderLines input head before rest)
  (hheader : header = (before ++ [crlf]).flatten) (hsize : input.length ≤ maxHeadersSize)
  (hbody : input = header ++ body) (hallows : Allows head body.length)
  (hsplit : (bs ++ c :: after).flatten = input) (hlt : bs.flatten.length < header.length)
  (hge : header.length ≤ bs.flatten.length + c.length)

include h hheader hsize hbody hallows hsplit hlt hge

/-- **A request without a body** is answered at the end of its header
section, wherever the chunks are cut. -/
theorem feed_of_body_nil (hne : ∀ x ∈ after, x ≠ []) (hnil : body = []) :
    feed .new (bs ++ c :: after) =
      .ok (answers (bs ++ c :: after).length { head := head, body := [] }) := by
  subst hnil
  obtain ⟨consumed, -, hfeed⟩ := feed_end h hheader hsize hsplit hlt hge
  have hflat := (append_eq_nil_iff.1 (drop_append_flatten (hsplit.trans hbody) hlt hge)).2
  obtain rfl : after = [] := eq_nil_of_flatten hne hflat
  rw [hfeed, run_endHeaders_of_zero hallows, length_append]
  exact congrArg Except.ok (replicate_append_answers (k := 1) Nat.one_ne_zero)

/-- **A request with a body** is answered with its last chunk, when the
earlier chunks left nothing over. -/
theorem feed_of_leftover_nil (hne : ∀ x ∈ after, x ≠ []) (hnil : body ≠ [])
    (hleft : leftover bs.flatten = []) : feed .new (bs ++ c :: after) =
      .ok (answers (bs ++ c :: after).length { head := head, body := body }) := by
  obtain ⟨consumed, hconsumed, hfeed⟩ := feed_end h hheader hsize hsplit hlt hge
  have hpos : body.length ≠ 0 := by simpa using hnil
  rw [hleft, length_nil, Nat.add_zero] at hconsumed
  obtain rfl : consumed = header.length - bs.flatten.length := by omega
  have hdrop := drop_append_flatten (hsplit.trans hbody) hlt hge
  have hlen := congrArg length hdrop
  rw [length_append] at hlen
  rw [hfeed, run_endHeaders_of_le hallows hpos (by omega),
    take_of_length_le (by omega), length_append, ← replicate_append_answers (by simp)]
  split_ifs with hall
  · have hflat : after.flatten = [] := length_eq_zero_iff.1 (by omega)
    obtain rfl : after = [] := eq_nil_of_flatten hne hflat
    rw [flatten_nil, append_nil] at hdrop
    rw [hdrop]
    rfl
  · have hafter : after.length ≠ 0 := by
      rintro hzero
      rw [length_eq_zero_iff.1 hzero, flatten_nil, length_nil] at hlen
      omega
    rw [feedAfter_ok, feed_body_of_eq after hallows.le (by omega) hlen hne, hdrop, length_cons,
      answers_cons hafter]
    rfl

/-- **What the earlier chunks left over is skipped again**: part of the
body is lost, or the slice is out of range. -/
theorem feed_ne_of_leftover (hnil : body ≠ []) (hleft : leftover bs.flatten ≠ []) (n : Nat) :
    feed .new (bs ++ c :: after) ≠ .ok (answers n request) := by
  obtain ⟨consumed, hconsumed, hfeed⟩ := feed_end h hheader hsize hsplit hlt hge
  have hpos : body.length ≠ 0 := by simpa using hnil
  have hleft : (leftover bs.flatten).length ≠ 0 := by simpa using hleft
  have hlen := congrArg length (drop_append_flatten (hsplit.trans hbody) hlt hge)
  rw [length_append, length_drop] at hlen
  rw [hfeed]
  by_cases hrange : c.length < consumed
  · rw [run_endHeaders_of_lt hallows hpos hrange]
    nofun
  · have hshort : ((c.drop consumed).take body.length).length + after.flatten.length <
        body.length := by
      rw [length_take, length_drop]
      omega
    rw [run_endHeaders_of_le hallows hpos (by omega), if_neg (by omega), feedAfter_ok,
      feed_body_of_lt after hallows.le hshort]
    intro heq
    refine answers_ne_replicate n (bs.length + (after.length + 1)) request ?_
    rw [← replicate_append_replicate]
    exact (Except.ok.inj heq).symm

end Split

/-! ## Splits of one request -/

/-- **Feeding a request in chunks is parsing it at once** exactly when
the request has no body or the chunk with the end of the header section
starts a line. -/
theorem feed_eq_answers_iff (input header : Text) (chunks : List Text)
    (hsize : input.length ≤ maxHeadersSize)
    (hsingle : (parseChunk input).run .new = .ok (.ok (some request), p))
    (hheader : IsHeaderSection input header)
    (hexact : input.length = header.length + request.body.length)
    (hsplit : chunks.flatten = input) (hne : ∀ c ∈ chunks, c ≠ []) :
    feed .new chunks = .ok (answers chunks.length request) ↔
      input = header ∨ StartsLine chunks header := by
  obtain ⟨head, before, rest, hlines, hbefore, hrun⟩ := headerLines_of_run hsize hsingle
  have hH : header = (before ++ [crlf]).flatten := hlines.eq_header hbefore hheader
  rw [← hH] at hrun
  obtain ⟨hrequest, hallows⟩ := body_of_run_endHeaders hheader.initial.length_le hrun hexact
  obtain ⟨body, rfl⟩ := hheader.initial
  rw [drop_left] at hrequest
  subst hrequest
  rw [append_right_eq_self]
  constructor
  · intro hfeed
    refine or_iff_not_imp_left.2 fun hnil bs c after hchunks hlt hge => ?_
    subst hchunks
    rw [← leftover_eq_nil_iff]
    by_contra hleft
    exact feed_ne_of_leftover hlines hH hsize rfl hallows hsplit hlt hge hnil hleft _ hfeed
  · intro hor
    have hpos : 0 < header.length := by
      rw [hH]
      simp [crlf]
    obtain ⟨bs, c, after, rfl, hlt, hge⟩ := exists_chunk chunks hpos
      (by rw [hsplit, length_append]; omega)
    have hafter : ∀ x ∈ after, x ≠ [] := fun x hx => hne x (by simp [hx])
    by_cases hnil : body = []
    · rw [feed_of_body_nil hlines hH hsize rfl hallows hsplit hlt hge hafter hnil, hnil]
    · have hleft := (leftover_eq_nil_iff _).2 ((hor.resolve_left hnil) bs c after rfl hlt hge)
      exact feed_of_leftover_nil hlines hH hsize rfl hallows hsplit hlt hge hafter hnil hleft

/-- A header section is found by looking at all shorter initial parts. -/
theorem IsHeaderSection.of_take (hinitial : header <+: input) (hblank : crlf ++ crlf <:+ header)
    (h : ∀ k < header.length, ¬ crlf ++ crlf <:+ input.take k) : IsHeaderSection input header where
  initial := hinitial
  blank := hblank
  shortest s hs hsuffix := by
    by_contra hlt
    refine h s.length (by omega) ?_
    rw [← prefix_iff_eq_take.1 hs]
    exact hsuffix

/-- A header section with a body of two bytes to follow. -/
def sampleHeader : Text := "POST / HTTP/1.1\r\ncontent-length: 2\r\n\r\n".toList

/-- The request it starts, with the body `hi`. -/
def sampleRequest : Request where
  head := {
    method := .post
    path := "/".toList
    query := []
    headers := [("content-length".toList, ["2".toList])] }
  body := "hi".toList

theorem isHeaderSection_sample : IsHeaderSection (sampleHeader ++ "hi".toList) sampleHeader :=
  .of_take (by decide) (by decide) (by decide +kernel)

theorem run_parseChunk_sample : (parseChunk (sampleHeader ++ "hi".toList)).run .new =
      .ok (.ok (some sampleRequest), .new) := by decide +kernel

/-- A request with a body, cut at the start of its empty line. -/
theorem feed_eq_answers_cut_at_line :
    feed .new ["POST / HTTP/1.1\r\ncontent-length: 2\r\n".toList, "\r\nhi".toList] =
      .ok (answers 2 sampleRequest) := by
  refine (feed_eq_answers_iff (sampleHeader ++ "hi".toList) sampleHeader _ (by decide)
    run_parseChunk_sample isHeaderSection_sample (by decide) (by decide) (by decide)).2
    (.inr ?_)
  rintro (_ | ⟨x, bs⟩) c after hchunks - -
  · exact .inl rfl
  · obtain ⟨rfl, hrest⟩ := cons.inj hchunks
    cases bs with
    | nil => exact .inr (by decide)
    | cons y bs =>
      have hlen := congrArg length hrest
      simp at hlen

/-- **A cut within the empty line**: with the line feed alone in its
chunk the parser panics, with the body after it the body is never
complete. -/
theorem feed_ne_answers_of_cut_in_line : sampleHeader.length + "hi".toList.length ≤ maxHeadersSize ∧
      (parseChunk (sampleHeader ++ "hi".toList)).run .new = .ok (.ok (some sampleRequest), .new) ∧
      IsHeaderSection (sampleHeader ++ "hi".toList) sampleHeader ∧
      ["POST / HTTP/1.1\r\ncontent-length: 2\r\n\r".toList, "\n".toList, "hi".toList].flatten =
        sampleHeader ++ "hi".toList ∧
      feed .new ["POST / HTTP/1.1\r\ncontent-length: 2\r\n\r".toList, "\n".toList, "hi".toList] =
        .error .outOfRange ∧
      ["POST / HTTP/1.1\r\ncontent-length: 2\r\n\r".toList, "\nhi".toList].flatten =
        sampleHeader ++ "hi".toList ∧
      feed .new ["POST / HTTP/1.1\r\ncontent-length: 2\r\n\r".toList, "\nhi".toList] =
        .ok [.ok none, .ok none] :=
  ⟨by decide, run_parseChunk_sample, isHeaderSection_sample, by decide, by decide +kernel,
    by decide, by decide +kernel⟩

end Archives.Ftl.Http
