import Onced.Gateway.Leases
import Onced.Gateway.RoundTrip

/-! # Reading the metrics back

The counters are published as text: comments, and one sample per line with the
name of its series before the first space. A scraper that reads the response of
the router off the wire, and the samples off its body, gets every counter of the
router, once and under its own name.
-/

namespace Onced

open Foundation Http

/-! ## Reading samples -/

/-- One sample: the name of the series, and the value if it is a number. -/
def sample (line : List Char) : String × Option Nat :=
  (String.ofList (line.takeWhile (· ≠ ' ')),
    parseUsize (String.ofList ((line.dropWhile (· ≠ ' ')).drop 1)))

/-- A line that is neither empty nor a comment. -/
def isSample (line : List Char) : Bool := line.head? ≠ none ∧ line.head? ≠ some '#'

/-- The samples of a text. -/
def samples (text : String) : List (String × Option Nat) :=
  ((text.toList.splitOn '\n').filter isSample).map sample

/-- Reading terminated lines reads those that are not comments. -/
theorem samples_join {lines : List String} (hlines : ∀ line ∈ lines, '\n' ∉ line.toList) :
    samples (String.join (lines.map fun line => line ++ "\n")) =
      ((lines.map String.toList).filter isSample).map sample := by
  have htext : (String.join (lines.map fun line => line ++ "\n")).toList =
      (lines.map String.toList).flatMap fun line => line ++ ['\n'] := by
    simp [String.toList_join, List.flatMap_map]
  have hlists : ∀ line ∈ lines.map String.toList, '\n' ∉ line := by
    intro line hline
    obtain ⟨text, htext, rfl⟩ := List.mem_map.mp hline
    exact hlines text htext
  rw [samples, htext, splitOn_terminated '\n' hlists, List.filter_append]
  simp [isSample]

/-- A sample as a line. -/
def sampleLine (entry : String × UInt64) : String := entry.1 ++ " " ++ toString entry.2

/-- A name and a number, one space apart, are read back. -/
theorem sample_sampleLine {entry : String × UInt64} (hname : ' ' ∉ entry.1.toList) :
    sample (sampleLine entry).toList = (entry.1, some entry.2.toNat) := by
  have hline : (sampleLine entry).toList =
      entry.1.toList ++ ' ' :: (toString entry.2.toNat).toList := by
    simp only [sampleLine, String.toList_append, List.append_assoc]
    rfl
  have hspaces : ∀ c ∈ entry.1.toList, (decide (c ≠ ' ')) = true := by
    intro c hc
    rw [decide_eq_true_eq]
    rintro rfl
    exact hname hc
  have hvalue : parseUsize (toString entry.2.toNat) = some entry.2.toNat :=
    parseUnsigned_toString entry.2.toNat_lt
  rw [sample, hline, List.takeWhile_append_of_pos hspaces, List.dropWhile_append_of_pos hspaces,
    List.takeWhile_cons_of_neg (by decide), List.dropWhile_cons_of_neg (by decide),
    List.append_nil, List.drop_one, List.tail_cons, String.ofList_toList, String.ofList_toList,
    hvalue]

/-! ## The text of the counters -/

/-- The series of one outcome. -/
def outcomeSeries (outcome : String) : String :=
  "onced_outcomes_total\x7boutcome=\"" ++ outcome ++ "\"\x7d"

def seriesNames : List String :=
  ["onced_requests_total", outcomeSeries "created", outcomeSeries "replayed",
    outcomeSeries "in_progress", outcomeSeries "mismatch", outcomeSeries "denied",
    outcomeSeries "upstream_error", outcomeSeries "passthrough"]

def requestsComments : List String :=
  ["# HELP onced_requests_total Proxied requests handled.", "# TYPE onced_requests_total counter"]

def outcomesComments : List String :=
  ["# HELP onced_outcomes_total Responses by how they were produced.",
    "# TYPE onced_outcomes_total counter"]

/-- What a reader of the text relies on in a name: it is one word, and no comment. -/
theorem seriesNames_plain : ∀ name ∈ seriesNames, ' ' ∉ name.toList ∧ '\n' ∉ name.toList ∧
    name.toList.head? = some 'o' ∧ name.toList.length ≤ 50 := by decide

theorem comments_plain : ∀ comment ∈ requestsComments ++ outcomesComments,
    '\n' ∉ comment.toList ∧ isSample comment.toList = false ∧ comment.toList.length ≤ 70 := by
  decide

namespace Metrics

/-- The counters of the outcomes. -/
def byOutcome (metrics : Metrics) : List (String × UInt64) :=
  [("created", metrics.created), ("replayed", metrics.replayed),
    ("in_progress", metrics.inProgress), ("mismatch", metrics.mismatch),
    ("denied", metrics.denied), ("upstream_error", metrics.upstreamError),
    ("passthrough", metrics.passthrough)]

/-- The counters under the names of their series. -/
def series (metrics : Metrics) : List (String × UInt64) :=
  ("onced_requests_total", metrics.requestsTotal) ::
    metrics.byOutcome.map fun entry => (outcomeSeries entry.1, entry.2)

/-- The lines of the text. -/
def lines (metrics : Metrics) : List String :=
  requestsComments ++ sampleLine ("onced_requests_total", metrics.requestsTotal) ::
    (outcomesComments ++
      metrics.byOutcome.map fun entry => sampleLine (outcomeSeries entry.1, entry.2))

theorem map_fst_series (metrics : Metrics) : metrics.series.map Prod.fst = seriesNames := rfl

theorem name_of_mem_series {metrics : Metrics} {entry : String × UInt64}
    (hentry : entry ∈ metrics.series) : entry.1 ∈ seriesNames :=
  metrics.map_fst_series ▸ List.mem_map_of_mem hentry

end Metrics

theorem outcome_line (outcome : String) (count : UInt64) :
    "onced_outcomes_total\x7boutcome=\"" ++ outcome ++ "\"\x7d " ++ toString count =
      sampleLine (outcomeSeries outcome, count) := by
  have hlabel : "onced_outcomes_total\x7boutcome=\"" ++ outcome ++ "\"\x7d " =
      "onced_outcomes_total\x7boutcome=\"" ++ outcome ++ ("\"\x7d" ++ " ") := rfl
  have htext : "onced_outcomes_total\x7boutcome=\"" ++ outcome ++ "\"\x7d " =
      outcomeSeries outcome ++ " " := hlabel.trans String.append_assoc.symm
  rw [sampleLine, htext]

theorem join_text (help type name value stop help' type' : String) (rest : List String) :
    help ++ type ++ name ++ value ++ stop ++ help' ++ type' ++ String.join rest =
      String.join ([help, type, name ++ value ++ stop, help', type'] ++ rest) := by
  simp [String.append_assoc]

namespace Metrics

variable (metrics : Metrics)

/-- The text is its lines, each of them terminated. -/
theorem render_eq :
    metrics.render = String.join (metrics.lines.map fun line => line ++ "\n") := by
  have houtcomes : (fun entry : String × UInt64 =>
      "onced_outcomes_total\x7boutcome=\"" ++ entry.1 ++ "\"\x7d " ++ toString entry.2 ++ "\n") =
      fun entry => sampleLine (outcomeSeries entry.1, entry.2) ++ "\n" := by
    funext entry
    rw [outcome_line]
  -- the literals of the text end in the line feed, or the space, that the lines leave out
  have htext : metrics.render =
      ("# HELP onced_requests_total Proxied requests handled." ++ "\n") ++
        ("# TYPE onced_requests_total counter" ++ "\n") ++
        ("onced_requests_total" ++ " ") ++ toString metrics.requestsTotal ++ "\n" ++
        ("# HELP onced_outcomes_total Responses by how they were produced." ++ "\n") ++
        ("# TYPE onced_outcomes_total counter" ++ "\n") ++
        String.join (metrics.byOutcome.map fun entry =>
          "onced_outcomes_total\x7boutcome=\"" ++ entry.1 ++ "\"\x7d " ++ toString entry.2 ++
            "\n") := rfl
  rw [htext, houtcomes, join_text]
  rfl

theorem mem_lines {line : String} (hline : line ∈ metrics.lines) :
    line ∈ requestsComments ++ outcomesComments ∨
      ∃ entry ∈ metrics.series, line = sampleLine entry := by
  simp only [lines, List.mem_append, List.mem_cons, List.mem_map] at hline ⊢
  rcases hline with hcomment | htotal | hcomment | ⟨entry, hentry, rfl⟩
  · exact .inl (.inl hcomment)
  · exact .inr ⟨_, List.mem_cons_self, htotal⟩
  · exact .inl (.inr hcomment)
  · exact .inr ⟨_, List.mem_cons_of_mem _ (List.mem_map_of_mem hentry), rfl⟩

end Metrics

/-- A line of a sample is not cut, and not taken for a comment. -/
theorem sampleLine_plain {entry : String × UInt64} (hname : entry.1 ∈ seriesNames) :
    '\n' ∉ (sampleLine entry).toList ∧ isSample (sampleLine entry).toList = true := by
  obtain ⟨-, hnewline, hhead, -⟩ := seriesNames_plain entry.1 hname
  have hdigits : '\n' ∉ (toString entry.2).toList :=
    fun hmem => absurd (isDigit_of_mem_toString hmem) (by decide)
  simp only [isSample, sampleLine, String.toList_append, List.mem_append, List.head?_append, hhead]
  exact ⟨by simp [hnewline, hdigits], rfl⟩

/-- The text of any counters, read back, is the series of the counters. -/
theorem samples_render (metrics : Metrics) :
    samples metrics.render = metrics.series.map fun entry => (entry.1, some entry.2.toNat) := by
  have hcut : ∀ line ∈ metrics.lines, '\n' ∉ line.toList := by
    intro line hline
    rcases metrics.mem_lines hline with hcomment | ⟨entry, hentry, rfl⟩
    · exact (comments_plain line hcomment).1
    · exact (sampleLine_plain (Metrics.name_of_mem_series hentry)).1
  have hcomments : ∀ comments : List String,
      (∀ comment ∈ comments, comment ∈ requestsComments ++ outcomesComments) →
        (comments.map String.toList).filter isSample = [] := by
    intro comments hmem
    rw [List.filter_eq_nil_iff]
    intro line hline
    obtain ⟨comment, hcomment, rfl⟩ := List.mem_map.mp hline
    rw [(comments_plain comment (hmem comment hcomment)).2.1]
    exact Bool.false_ne_true
  have hsamples : ((metrics.series.map sampleLine).map String.toList).filter isSample =
      (metrics.series.map sampleLine).map String.toList := by
    rw [List.filter_eq_self]
    intro line hline
    obtain ⟨text, htext, rfl⟩ := List.mem_map.mp hline
    obtain ⟨entry, hentry, rfl⟩ := List.mem_map.mp htext
    exact (sampleLine_plain (Metrics.name_of_mem_series hentry)).2
  have hkept : (metrics.lines.map String.toList).filter isSample =
      ((metrics.series.map sampleLine).map String.toList).filter isSample := by
    simp only [Metrics.lines, Metrics.series, List.map_append, List.map_cons, List.filter_append,
      List.filter_cons, List.map_map]
    rw [hcomments requestsComments fun _ => List.mem_append_left _,
      hcomments outcomesComments fun _ => List.mem_append_right _]
    rfl
  rw [metrics.render_eq, samples_join hcut, hkept, hsamples, List.map_map, List.map_map]
  refine List.map_congr_left fun entry hentry => ?_
  exact sample_sampleLine (seriesNames_plain entry.1 (Metrics.name_of_mem_series hentry)).1

/-! ## The response on the wire -/

/-- A character takes at most four bytes. -/
theorem length_utf8_le (text : String) : (utf8 text).length ≤ text.toList.length * 4 := by
  rw [utf8_eq_flatMap, List.length_flatMap, ← List.length_map]
  apply List.sum_le_card_nsmul
  intro size hsize
  obtain ⟨c, -, rfl⟩ := List.mem_map.mp hsize
  rw [String.length_utf8EncodeChar]
  exact c.utf8Size_le_four

/-- A counter has at most twenty digits. -/
theorem length_sampleLine_le {entry : String × UInt64} (hname : entry.1 ∈ seriesNames) :
    (sampleLine entry).toList.length ≤ 71 := by
  have hlength := (seriesNames_plain entry.1 hname).2.2.2
  have hdigits : (toString entry.2).toList.length ≤ 20 := by
    have hvalue : toString entry.2 = String.ofList (Nat.toDigits 10 entry.2.toNat) :=
      Nat.toString_eq_ofList_toDigits
    rw [hvalue, String.toList_ofList]
    exact Nat.toDigits_length 10 _ 20 (by decide) (Nat.lt_trans entry.2.toNat_lt (by decide))
  have hspace : " ".toList.length = 1 := rfl
  simp only [sampleLine, String.toList_append, List.length_append]
  omega

theorem length_render_le (metrics : Metrics) : metrics.render.toList.length ≤ 864 := by
  have hlines : ∀ line ∈ metrics.lines, line.toList.length ≤ 71 := by
    intro line hline
    rcases metrics.mem_lines hline with hcomment | ⟨entry, hentry, rfl⟩
    · exact Nat.le_succ_of_le (comments_plain line hcomment).2.2
    · exact length_sampleLine_le (Metrics.name_of_mem_series hentry)
  have hcount : metrics.lines.length = 12 := rfl
  rw [metrics.render_eq, String.toList_join, List.length_flatMap, List.map_map]
  refine (List.sum_le_card_nsmul _ 72 ?_).trans ?_
  · intro length hlength
    obtain ⟨line, hline, rfl⟩ := List.mem_map.mp hlength
    rw [Function.comp_apply, String.toList_append, List.length_append]
    exact Nat.succ_le_succ (hlines line hline)
  · rw [List.length_map, hcount, smul_eq_mul]

theorem isAnswer_metricsResponse (metrics : Metrics) : IsAnswer (metricsResponse metrics) where
  headers := by
    intro header hheader
    obtain rfl := List.mem_singleton.mp hheader
    exact ⟨by decide, by decide, by decide, by decide, by decide⟩
  body := by
    have hbody := length_utf8_le metrics.render
    have hrender := length_render_le metrics
    simp only [metricsResponse, isizeMax]
    omega

/-- Whatever a router has counted, a scrape of it reads every counter, once and under its own
name: off the wire, off the body, and off the lines of the text. -/
theorem Router.scrape_reads_counters {σ : Type} (router : Router σ) (request : Request)
    (hpath : pathOf request = "/metrics") (rest : List UInt8) :
    ∃ answer received text, router.operationalResponse request = some answer ∧
      parseResponse (writeResponse answer ++ rest) = .ok (received, rest) ∧
      received.body = utf8 text ∧
      samples text =
        router.aggregateMetrics.series.map (fun entry => (entry.1, some entry.2.toNat)) ∧
      (router.aggregateMetrics.series.map Prod.fst).Nodup := by
  have hother : pathOf request ≠ "/healthz" := by
    rw [hpath]
    decide
  have hanswer : router.operationalResponse request =
      some (metricsResponse router.aggregateMetrics) := by
    rw [operationalResponse, if_neg hother, if_pos hpath]
  exact ⟨_, _, _, hanswer,
    parseResponse_writeResponse (isAnswer_metricsResponse router.aggregateMetrics) rest, rfl,
    samples_render router.aggregateMetrics, by
      rw [Metrics.map_fst_series]
      decide⟩

/-- Two requests without a key, of which one is back from the backend. -/
def Router.unkeyed : List Router.Event :=
  [.begin .done ⟨"GET", "/", [], []⟩ 0, .begin .done ⟨"GET", "/", [], []⟩ 1,
    .complete .done 1 0 (.ok ⟨200, [], []⟩)]

/-- A scrape of two shards after they have counted them. -/
theorem Router.scrape_reads_counters_unkeyed :
    ∃ router : Router MemoryStore, Router.new (desks 2) [.new] = .ok router ∧
      ∃ log last, Foundation.runSteps (Router.step fun _ => 7) router unkeyed = .ok (log, last) ∧
      ∃ answer received text,
        last.operationalResponse ⟨"GET", "/metrics?now", [], []⟩ = some answer ∧
        parseResponse (writeResponse answer ++ []) = .ok (received, []) ∧
        received.body = utf8 text ∧
        ("onced_requests_total", some 2) ∈ samples text ∧
        ("onced_outcomes_total\x7boutcome=\"passthrough\"\x7d", some 1) ∈ samples text ∧
        ("onced_outcomes_total\x7boutcome=\"created\"\x7d", some 0) ∈ samples text := by
  have hrun : ∃ log last, Foundation.runSteps (Router.step fun _ => 7)
      (⟨(desks 2).map .fresh, [.new], 0, 0⟩ : Router MemoryStore) unkeyed = .ok (log, last) ∧
      last.aggregateMetrics = { requestsTotal := 2, passthrough := 1 } := ⟨_, _, rfl, by decide⟩
  obtain ⟨log, last, hrun, hcounted⟩ := hrun
  obtain ⟨answer, received, text, hanswer, hreceived, hbody, hsamples, -⟩ :=
    last.scrape_reads_counters ⟨"GET", "/metrics?now", [], []⟩ (by decide) []
  refine ⟨_, rfl, log, last, hrun, answer, received, text, hanswer, hreceived, hbody, ?_⟩
  rw [hsamples, hcounted]
  decide

end Onced
