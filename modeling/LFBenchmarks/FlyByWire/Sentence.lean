import LFBenchmarks.Framework.Decimal
import LFBenchmarks.FlyByWire.Nav

namespace LFBenchmarks.FlyByWire

open Stdio

section Sentence

/-- The fields of a well-formed GLL sentence. -/
structure Sentence where
  latitude : Decimal
  latDir : Char
  longitude : Decimal
  lonDir : Char
  time : List Char
  status : List Char
  checksum : List Char
  latitude_digits : latitude.digits ≠ []
  longitude_digits : longitude.digits ≠ []
  time_digit : ∀ c ∈ time, c.isDigit = true
  time_ne_nil : time ≠ []
  time_fits : digitsValue 10 time ≤ 2147483647

/-- The sentence up to its time field, followed by `rest`. -/
def Sentence.headed (s : Sentence) (rest : List Char) : List Char :=
  "$GPGLL,".toList ++ (s.latitude.text ++ ',' :: s.latDir :: ',' ::
    (s.longitude.text ++ ',' :: s.lonDir :: ',' :: rest))

def Sentence.text (s : Sentence) : List Char :=
  s.headed (s.time ++ ',' :: (s.status ++ '*' :: s.checksum))

/-- The second line of `G18_validation.txt`. -/
def Sentence.recorded : Sentence where
  latitude := ⟨['4', '4', '2', '4'], some ['8', '5', '3', '6'], by simp, by simp⟩
  latDir := 'N'
  longitude := ⟨['0', '0', '8', '5', '2'], some ['9', '0', '6', '7'], by simp, by simp⟩
  lonDir := 'E'
  time := ['1', '2', '3', '3', '0', '6']
  status := ['A']
  checksum := ['2', '6']
  latitude_digits := by decide
  longitude_digits := by decide
  time_digit := by simp
  time_ne_nil := by decide
  time_fits := by decide

example : Sentence.recorded.text = "$GPGLL,4424.8536,N,00852.9067,E,123306,A*26".toList := by
  decide

theorem Sentence.headed_eq (s : Sentence) (rest : List Char) :
    s.headed rest = s.headed [] ++ rest := by
  unfold Sentence.headed
  generalize "$GPGLL,".toList = start
  simp

theorem Sentence.prefix_headed (s : Sentence) (rest p : List Char) (h : p <+: s.headed rest) :
    p <+: s.headed [] ∨ ∃ c q, p = s.headed (c :: q) ∧ c :: q <+: rest := by
  rw [s.headed_eq rest] at h
  rcases List.prefix_or_prefix_of_prefix h (List.prefix_append _ rest) with hp | ⟨q, rfl⟩
  · exact .inl hp
  · cases q with
    | nil => exact .inl (by simp)
    | cons c q =>
      exact .inr ⟨c, q, (s.headed_eq _).symm, (List.prefix_append_right_inj _).mp h⟩

/-- The four fields before the time are scanned exactly. -/
theorem sscanf_position (lat lon : Decimal) (latDir lonDir : Char) (rest : List Char)
    (hlat : lat.digits ≠ []) (hlon : lon.digits ≠ []) :
    sscanf gpgllFormat ("$GPGLL,".toList ++ (lat.text ++ ',' :: latDir :: ',' ::
      (lon.text ++ ',' :: lonDir :: ',' :: rest))) =
      .double (.finite lat.value) :: .char latDir :: .double (.finite lon.value) ::
        .char lonDir :: sscanf [.d, .literal ',', .s 31] rest := by
  have hcomma (t : List Char) : Stops (',' :: t) := stops_cons ',' t (by decide)
  unfold gpgllFormat
  rw [sscanf_literals]
  simp only [sscanf, scanDouble_text _ _ (hcomma _), hlat, hlon, if_false, if_true]

theorem Sentence.sscanf_headed (s : Sentence) (rest : List Char) :
    sscanf gpgllFormat (s.headed rest) =
      .double (.finite s.latitude.value) :: .char s.latDir ::
        .double (.finite s.longitude.value) :: .char s.lonDir ::
          sscanf [.d, .literal ',', .s 31] rest :=
  sscanf_position _ _ _ _ rest s.latitude_digits s.longitude_digits

/-- A sentence cut off before its time field yields at most the four fields before it. -/
theorem Sentence.assignsAtMost_headed (s : Sentence) :
    AssignsAtMost 4 gpgllFormat (s.headed []) := by
  have hcomma (t : List Char) : Stops (',' :: t) := stops_cons ',' t (by decide)
  have hend : AssignsAtMost 0 [.d, .literal ',', .s 31] [] := by
    intro p hp
    rw [List.prefix_nil.mp hp, sscanf_nil]
    rfl
  have hlon := (((hend.literal ',').char s.lonDir).literal ',').double s.longitude (hcomma _)
  have hlat := (((hlon.literal ',').char s.latDir).literal ',').double s.latitude (hcomma _)
  exact hlat.literals "$GPGLL,".toList

theorem sscanf_time (c : Char) (q : List Char) (hc : c.isDigit = true) :
    ∃ items, sscanf [.d, .literal ',', .s 31] (c :: q) =
      .int (digitsValue 10 ((c :: q).takeWhile Char.isDigit)) :: items := by
  simp only [sscanf, scanInt_digit c q hc]
  exact ⟨_, rfl⟩

theorem parseGpgll_of_few (line : List Char) (fix : GllFix)
    (h : (sscanf gpgllFormat line).length ≤ 4) :
    parseGpgll line fix = (false, { fix with valid := false }) := by
  unfold parseGpgll
  split_ifs
  · split
    · next hitems =>
      rw [hitems] at h
      simp only [List.length_cons] at h
      omega
    · rfl
  · rfl

theorem Sentence.parseGpgll_headed (s : Sentence) (c : Char) (q : List Char)
    (hc : c.isDigit = true) (fix : GllFix) :
    parseGpgll (s.headed (c :: q)) fix =
      (true, ⟨.finite s.latitude.value, s.latDir, .finite s.longitude.value, s.lonDir,
        digitsValue 10 ((c :: q).takeWhile Char.isDigit), true⟩) := by
  have hprefix : gpgllSentence.isPrefixOf (s.headed (c :: q)) = true := by
    rw [List.isPrefixOf_iff_prefix]
    exact ⟨',' :: _, rfl⟩
  obtain ⟨items, hitems⟩ := sscanf_time c q hc
  unfold parseGpgll
  rw [if_pos hprefix, s.sscanf_headed, hitems]

/-- A well-formed sentence is decoded exactly; cut off anywhere, it is rejected or keeps its
position; and nothing but a GLL sentence is accepted. -/
theorem parse_gpgll_exact (s : Sentence) (fix : GllFix) :
    parseGpgll s.text fix =
      (true, ⟨.finite s.latitude.value, s.latDir, .finite s.longitude.value, s.lonDir,
        digitsValue 10 s.time, true⟩) ∧
    (∀ p, p <+: s.text →
      let r := parseGpgll p fix
      r.1 = false ∧ r.2.valid = false ∨
        r.1 = true ∧ r.2.latitude = .finite s.latitude.value ∧ r.2.latDir = s.latDir ∧
          r.2.longitude = .finite s.longitude.value ∧ r.2.lonDir = s.lonDir) ∧
    ∀ line, ¬"$GPGLL".toList <+: line →
      (parseGpgll line fix).1 = false ∧ (parseGpgll line fix).2.valid = false := by
  obtain ⟨c, time, htime⟩ := List.exists_cons_of_ne_nil s.time_ne_nil
  have hc : c.isDigit = true := s.time_digit c (by simp [htime])
  refine ⟨?_, fun p hp => ?_, fun line hline => ?_⟩
  · have hscan := s.parseGpgll_headed c (time ++ ',' :: (s.status ++ '*' :: s.checksum)) hc fix
    rw [← List.cons_append, ← htime] at hscan
    rw [(takeWhile_digits s.time _ s.time_digit (by simp)).1] at hscan
    exact hscan
  · rcases s.prefix_headed _ p hp with hcut | ⟨d, q, rfl, hq⟩
    · rw [parseGpgll_of_few p fix (s.assignsAtMost_headed p hcut)]
      exact .inl ⟨rfl, rfl⟩
    · have hd : d = c := by
        rw [htime] at hq
        exact (List.cons_prefix_cons.mp hq).1
      rw [s.parseGpgll_headed d q (hd ▸ hc) fix]
      exact .inr ⟨rfl, rfl, rfl, rfl, rfl⟩
  · have hno : gpgllSentence.isPrefixOf line = false := by
      rw [← Bool.not_eq_true, List.isPrefixOf_iff_prefix]
      exact hline
    unfold parseGpgll
    simp [hno]

theorem parse_gpgll_exact_recorded :
    parseGpgll Sentence.recorded.text GllFix.zero =
      (true, ⟨.finite Sentence.recorded.latitude.value, 'N',
        .finite Sentence.recorded.longitude.value, 'E', 123306, true⟩) ∧
    (let r := parseGpgll "$GPGLL,4424.8536,N,00852.9067,E,1233".toList GllFix.zero;
      r.1 = false ∧ r.2.valid = false ∨
        r.1 = true ∧ r.2.latitude = .finite Sentence.recorded.latitude.value ∧ r.2.latDir = 'N' ∧
          r.2.longitude = .finite Sentence.recorded.longitude.value ∧ r.2.lonDir = 'E') ∧
    (parseGpgll "$GPRMC,123306,A".toList GllFix.zero).1 = false := by
  obtain ⟨hwhole, hcut, hother⟩ := parse_gpgll_exact Sentence.recorded GllFix.zero
  refine ⟨hwhole.trans ?_, hcut _ (by decide), (hother _ (by decide)).1⟩
  rw [show digitsValue 10 Sentence.recorded.time = 123306 by decide]
  rfl

end Sentence

end LFBenchmarks.FlyByWire
