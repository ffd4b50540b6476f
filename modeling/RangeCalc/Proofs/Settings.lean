import RangeCalc.Proofs.Fallible
import RangeCalc.Settings

/-!
# Settings overlay the defaults

Settings can be written as the values of the known keys (`Settings.toEntries`), and each check reads back
exactly the values that are written from what it takes (`ReadsWritten`). So the settings of a file are the
defaults with the values of the file laid over them, and there are such settings exactly if all keys are known
and all these values are in their domains (`Settings.ofDocument_overlays`). A file that is refused is reported
as such unless one of its keys is no text, or the value that is refused cannot be displayed.
-/

namespace RangeCalc

/-! ## Reading values -/

/-- Whether a check takes exactly the values that are written from what is `valid`, and gives that. -/
def ReadsWritten {α : Type} (read : Document → Option α) (write : α → Document) (valid : α → Prop) : Prop :=
  ∀ d x, read d = some x ↔ d = write x ∧ valid x

namespace ReadsWritten

variable {α : Type} {read : Document → Option α} {write : α → Document} {valid : α → Prop}
  (h : ReadsWritten read write valid)
include h

theorem eq_none_iff {d : Document} : read d = none ↔ ¬ ∃ x, d = write x ∧ valid x := by
  simp only [Option.eq_none_iff_forall_ne_some, ne_eq, h d, not_exists]

/-- A check of each value of a list. -/
theorem mapM (items : List Document) (xs : List α) :
    items.mapM read = some xs ↔ items = xs.map write ∧ ∀ x ∈ xs, valid x := by
  induction items generalizing xs with
  | nil =>
    rw [List.mapM_nil]
    cases xs <;> simp
  | cons d items ih =>
    rw [List.mapM_cons]
    simp only [bind, Option.bind_eq_some_iff, h d, ih, pure, Option.some.injEq]
    constructor
    · rintro ⟨x, ⟨rfl, hx⟩, rest, ⟨rfl, hrest⟩, rfl⟩
      exact ⟨rfl, List.forall_mem_cons.mpr ⟨hx, hrest⟩⟩
    · rintro ⟨hitems, hxs⟩
      cases xs with
      | nil => cases hitems
      | cons x rest =>
        obtain ⟨rfl, rfl⟩ := List.cons_eq_cons.mp hitems
        rw [List.forall_mem_cons] at hxs
        exact ⟨x, ⟨rfl, hxs.1⟩, rest, ⟨rfl, hxs.2⟩, rfl⟩

end ReadsWritten

namespace Percent

/-- A percentile as a value of a file. -/
def toDocument : Percent → Document
  | whole n => .integer n
  | decimal x => .decimal x

/-- Whether a percentile is between zero and one hundred. -/
def InRange : Percent → Prop
  | whole n => 0 ≤ n ∧ n ≤ 100
  | decimal x => 0 ≤ x ∧ x ≤ 100

end Percent

/-- A seed as a value of a file. -/
def seedDocument : Option Int → Document
  | some n => .integer n
  | none => .null

namespace Document

theorem reads_percent? : ReadsWritten percent? Percent.toDocument Percent.InRange := by
  intro d p
  cases d with
  | integer n => cases p <;> simp [percent?, Percent.toDocument, Percent.InRange]; grind
  | decimal x => cases p <;> simp [percent?, Percent.toDocument, Percent.InRange]; grind
  | _ => cases p <;> simp [percent?, Percent.toDocument]

theorem reads_percents? : ReadsWritten percents? (fun ps => .list (ps.map Percent.toDocument))
    (∀ p ∈ ·, Percent.InRange p) := by
  intro d ps
  cases d with
  | list items => simp only [percents?, reads_percent?.mapM, list.injEq]
  | _ => simp [percents?]

theorem reads_positive? : ReadsWritten positive? .integer (1 ≤ ·) := by
  intro d n
  cases d with
  | integer m => simp [positive?]; grind
  | _ => simp [positive?]

theorem reads_seed? : ReadsWritten seed? seedDocument fun _ => True := by
  intro d seed
  cases d <;> cases seed <;> simp [seed?, seedDocument]

end Document

namespace Settings

/-! ## Keys -/

theorem sameKey_text_iff {key : Document} {name : String} :
    Document.sameKey key (.text name) = true ↔ key = .text name := by
  cases key <;> simp [Document.sameKey, Document.units?]

/-- Whether the first entry for a key gives it a value. The keys of a mapping are different, so that there
is no other one. -/
def Gives (entries : List (Document × Document)) (key : String) (value : Document) : Prop :=
  ∃ before after, entries = before ++ (.text key, value) :: after ∧ .text key ∉ before.map (·.1)

theorem valueOf_of_gives {entries : List (Document × Document)} {key : String} {value : Document}
    (h : Gives entries key value) : valueOf entries key = value := by
  obtain ⟨before, after, rfl, hbefore⟩ := h
  have hnone : before.find? (fun entry => Document.sameKey entry.1 (.text key)) = none := by
    simp only [List.find?_eq_none, sameKey_text_iff]
    exact fun entry hentry hkey => hbefore (hkey ▸ List.mem_map_of_mem hentry)
  have hself : Document.sameKey (.text key) (.text key) = true := sameKey_text_iff.mpr rfl
  simp only [valueOf, List.find?_append, hnone, Option.none_or, List.find?_cons, hself]

theorem valueOf_of_not_mem {entries : List (Document × Document)} {key : String}
    (h : .text key ∉ entries.map (·.1)) : valueOf entries key = (defaults.lookup key).getD .null := by
  have hnone : entries.find? (fun entry => Document.sameKey entry.1 (.text key)) = none := by
    simp only [List.find?_eq_none, sameKey_text_iff]
    exact fun entry hentry hkey => h (hkey ▸ List.mem_map_of_mem hentry)
  simp only [valueOf, hnone]

theorem lookup_defaults {p : String × Document} (hp : p ∈ defaults) : defaults.lookup p.1 = some p.2 := by
  simp only [defaults, List.mem_cons, List.not_mem_nil, or_false] at hp
  rcases hp with rfl | rfl | rfl | rfl | rfl <;> rfl

theorem isKnown_iff {key : Document} : isKnown key = true ↔ ∃ p ∈ defaults, key = .text p.1 := by
  cases key with
  | text name => simp only [isKnown, List.any_eq_true, beq_iff_eq, Document.text.injEq, eq_comm (a := name)]
  | _ => simp [isKnown]

theorem isText_iff {key : Document} : isText key = true ↔ ∃ s, key = .text s := by
  cases key <;> simp [isText]

theorem isText_of_isKnown {key : Document} (h : isKnown key = true) : isText key = true := by
  obtain ⟨p, -, rfl⟩ := isKnown_iff.mp h
  rfl

theorem unordered?_of_texts {keys : List Document} (h : ∀ key ∈ keys, isText key = true) :
    unordered? keys = none := by
  induction keys with
  | nil => rfl
  | cons key keys ih =>
    rw [List.forall_mem_cons] at h
    have hnone : keys.find? (fun other => !key.isOrderedWith other) = none := by
      rw [List.find?_eq_none]
      intro other hother
      obtain ⟨s, rfl⟩ := isText_iff.mp h.1
      obtain ⟨t, rfl⟩ := isText_iff.mp (h.2 other hother)
      simp [Document.isOrderedWith]
    rw [unordered?, hnone]
    exact ih h.2

/-- What becomes of some keys: they are known, or a fault is reported, unless one of them is no text. -/
theorem checkKeys_cases (path : String) (keys : List Document) :
    (checkKeys path keys = .ok () ∧ ∀ key ∈ keys, isKnown key = true) ∨
      ∃ fault, checkKeys path keys = .error fault ∧ (∃ key ∈ keys, isKnown key = false) ∧
        (fault.isReported = true ↔ ∀ key ∈ keys, isText key = true) := by
  obtain ⟨unknown, hunknown⟩ : ∃ unknown, unknown = keys.filter fun key => !isKnown key := ⟨_, rfl⟩
  obtain ⟨strange, hstrange⟩ : ∃ strange, strange = unknown.filter fun key => !isText key := ⟨_, rfl⟩
  have hexists {key} (hkey : key ∈ unknown) : ∃ key ∈ keys, isKnown key = false := by
    simp only [hunknown, List.mem_filter, Bool.not_eq_true'] at hkey
    exact ⟨key, hkey⟩
  have htexts : (∀ key ∈ keys, isText key = true) ↔ strange = [] := by
    simp only [hstrange, hunknown, List.filter_eq_nil_iff, List.mem_filter, Bool.not_eq_true',
      Bool.not_eq_false, and_imp]
    refine forall₂_congr fun key _ => ⟨fun h _ => h, fun h => ?_⟩
    cases hknown : isKnown key with
    | true => exact isText_of_isKnown hknown
    | false => exact h hknown
  simp only [checkKeys, ← hunknown, ← hstrange, htexts]
  cases hunordered : unordered? unknown with
  | some pair =>
    have hne : strange ≠ [] := fun hnil => by
      have hall : ∀ key ∈ unknown, isText key = true := fun key hkey =>
        htexts.mpr hnil key (List.mem_filter.mp (hunknown ▸ hkey)).1
      rw [unordered?_of_texts hall] at hunordered
      cases hunordered
    obtain ⟨key, hkey⟩ := List.exists_mem_of_ne_nil strange hne
    exact .inr ⟨_, rfl, hexists (List.mem_filter.mp (hstrange ▸ hkey)).1, iff_of_false nofun hne⟩
  | none =>
    cases hs : strange with
    | cons key more =>
      have hkey : key ∈ strange := hs ▸ List.mem_cons_self
      exact .inr ⟨_, rfl, hexists (List.mem_filter.mp (hstrange ▸ hkey)).1,
        iff_of_false nofun (List.cons_ne_nil key more)⟩
    | nil =>
      cases hu : unknown with
      | cons key more =>
        exact .inr ⟨_, rfl, hexists (hu ▸ List.mem_cons_self), iff_of_true rfl rfl⟩
      | nil =>
        refine .inl ⟨rfl, fun key hkey => ?_⟩
        have hnot := List.filter_eq_nil_iff.mp (hunknown.symm.trans hu) key hkey
        simpa using hnot

/-! ## Settings as values -/

/-- Settings as the values of the known keys. -/
def toEntries (s : Settings) : List (String × Document) :=
  [("iterations", .integer s.iterations),
    ("bins", .integer s.bins),
    ("percentiles", .list (s.percentiles.map Percent.toDocument)),
    ("max_exact_ranges", .integer s.maxExactRanges),
    ("seed", seedDocument s.seed)]

/-- The defaults with the values that some entries give. -/
def overlay (entries : List (Document × Document)) : List (String × Document) :=
  defaults.map fun (key, _) => (key, valueOf entries key)

/-- Whether all settings are in their domains. -/
structure IsValid (s : Settings) : Prop where
  iterations : 1 ≤ s.iterations
  bins : 1 ≤ s.bins
  percentiles : ∀ p ∈ s.percentiles, p.InRange
  maxExactRanges : 1 ≤ s.maxExactRanges

/-- Whether a value is in the domain of a key. -/
def InDomain (key : String) (value : Document) : Prop :=
  if key = "percentiles" then
    ∃ ps : List Percent, value = .list (ps.map Percent.toDocument) ∧ ∀ p ∈ ps, p.InRange
  else if key = "seed" then ∃ seed, value = seedDocument seed
  else ∃ n : Int, value = .integer n ∧ 1 ≤ n

theorem isReported_refusal {fault : Document → SettingsFault} (h : ∀ d, (fault d).isReported = true)
    (value : Document) : (refusal fault value).isReported = value.isDisplayable := by
  rw [refusal]
  cases hshown : value.isDisplayable with
  | true => exact h value
  | false => rfl

section

variable {α : Type} {entries : List (Document × Document)} {key : String} {read : Document → Option α}
  {write : α → Document} {valid : α → Prop} {fault : Document → SettingsFault}

theorem checked_eq_ok (h : ReadsWritten read write valid) {x : α} :
    checked entries key read fault = .ok x ↔ valueOf entries key = write x ∧ valid x := by
  rw [← h, checked]
  cases read (valueOf entries key) <;> simp

theorem checked_eq_error (h : ReadsWritten read write valid) {e : SettingsFault} :
    checked entries key read fault = .error e ↔
      (¬ ∃ x, valueOf entries key = write x ∧ valid x) ∧ refusal fault (valueOf entries key) = e := by
  rw [← h.eq_none_iff, checked]
  cases read (valueOf entries key) <;> simp

/-- A value that is refused is outside of its domain, and is reported if it can be displayed. -/
theorem refused_of_checked (h : ReadsWritten read write valid) (hkey : key ∈ defaults.map Prod.fst)
    (hdomain : ∀ d, InDomain key d → ∃ x, d = write x ∧ valid x) (hfault : ∀ d, (fault d).isReported = true)
    {e : SettingsFault} (herror : checked entries key read fault = .error e) :
    ∃ p ∈ overlay entries, ¬ InDomain p.1 p.2 ∧ e.isReported = p.2.isDisplayable := by
  obtain ⟨hno, rfl⟩ := (checked_eq_error h).mp herror
  obtain ⟨⟨_, d⟩, hd, rfl⟩ := List.mem_map.mp hkey
  exact ⟨_, List.mem_map_of_mem hd, fun hin => hno (hdomain _ hin), isReported_refusal hfault _⟩

end

theorem toEntries_eq_overlay_iff {entries : List (Document × Document)} {s : Settings} :
    s.toEntries = overlay entries ↔
      valueOf entries "percentiles" = .list (s.percentiles.map Percent.toDocument) ∧
      valueOf entries "seed" = seedDocument s.seed ∧
      valueOf entries "iterations" = .integer s.iterations ∧
      valueOf entries "bins" = .integer s.bins ∧
      valueOf entries "max_exact_ranges" = .integer s.maxExactRanges := by
  simp only [toEntries, overlay, defaults, List.map_cons, List.map_nil, List.cons.injEq, Prod.mk.injEq,
    true_and, and_true]
  grind

theorem checkKeys_eq_ok (path : String) (keys : List Document) :
    checkKeys path keys = .ok () ↔ ∀ key ∈ keys, isKnown key = true := by
  rcases checkKeys_cases path keys with ⟨hok, hall⟩ | ⟨fault, herror, ⟨key, hkey, hunknown⟩, -⟩
  · exact iff_of_true hok hall
  · refine iff_of_false (herror ▸ nofun) fun hall => ?_
    exact absurd ((hall key hkey).symm.trans hunknown) (by decide)

/-- The settings of some entries: each of the known keys has the value that the entries give it, or its
default. -/
theorem ofEntries_eq_ok {path : String} {entries : List (Document × Document)} {s : Settings} :
    ofEntries path entries = .ok s ↔
      (∀ key ∈ entries.map (·.1), isKnown key = true) ∧ s.toEntries = overlay entries ∧ s.IsValid := by
  rw [toEntries_eq_overlay_iff, ← checkKeys_eq_ok path]
  simp only [ofEntries, positive, bind_eq_ok, checked_eq_ok Document.reads_percents?,
    checked_eq_ok Document.reads_seed?, checked_eq_ok Document.reads_positive?]
  constructor
  · rintro ⟨_, hkeys, ps, ⟨hps, hps'⟩, seed, ⟨hseed, -⟩, n, ⟨hn, hn'⟩, bins, ⟨hbins, hbins'⟩, most,
      ⟨hmost, hmost'⟩, hs⟩
    obtain rfl := Except.ok.inj hs
    exact ⟨hkeys, ⟨hps, hseed, hn, hbins, hmost⟩, hn', hbins', hps', hmost'⟩
  · rintro ⟨hkeys, ⟨hps, hseed, hn, hbins, hmost⟩, hvalid⟩
    exact ⟨(), hkeys, _, ⟨hps, hvalid.percentiles⟩, _, ⟨hseed, trivial⟩, _, ⟨hn, hvalid.iterations⟩, _,
      ⟨hbins, hvalid.bins⟩, _, ⟨hmost, hvalid.maxExactRanges⟩, rfl⟩

/-- The fault of some entries: a key is not known, or the value of a known key is not in its domain. -/
theorem ofEntries_eq_error {path : String} {entries : List (Document × Document)} {fault : SettingsFault}
    (h : ofEntries path entries = .error fault) :
    checkKeys path (entries.map (·.1)) = .error fault ∨
      (∀ key ∈ entries.map (·.1), isKnown key = true) ∧
        ∃ p ∈ overlay entries, ¬ InDomain p.1 p.2 ∧ fault.isReported = p.2.isDisplayable := by
  have hpositive {key : String} (hdefault : key ∈ defaults.map Prod.fst)
      (hother : key ≠ "percentiles" ∧ key ≠ "seed") (herror : positive entries key = .error fault) :
      ∃ p ∈ overlay entries, ¬ InDomain p.1 p.2 ∧ fault.isReported = p.2.isDisplayable :=
    refused_of_checked Document.reads_positive? hdefault
      (fun d hd => by rwa [InDomain, if_neg hother.1, if_neg hother.2] at hd) (fun _ => rfl) herror
  rw [ofEntries, bind_eq_error] at h
  rcases h with h | ⟨⟨⟩, hkeys, h⟩
  · exact .inl h
  refine .inr ⟨(checkKeys_eq_ok _ _).mp hkeys, ?_⟩
  rcases bind_eq_error.mp h with h | ⟨ps, -, h⟩
  · exact refused_of_checked Document.reads_percents? (by decide)
      (fun d hd => by rwa [InDomain, if_pos rfl] at hd) (fun _ => rfl) h
  rcases bind_eq_error.mp h with h | ⟨seed, -, h⟩
  · exact refused_of_checked Document.reads_seed? (by decide)
      (fun d hd => by simpa [InDomain] using hd) (fun _ => rfl) h
  rcases bind_eq_error.mp h with h | ⟨n, -, h⟩
  · exact hpositive (by decide) (by decide) h
  rcases bind_eq_error.mp h with h | ⟨bins, -, h⟩
  · exact hpositive (by decide) (by decide) h
  rcases bind_eq_error.mp h with h | ⟨most, -, h⟩
  · exact hpositive (by decide) (by decide) h
  · cases h

/-- The defaults pass their own checks. -/
theorem ofDocument_null (path : String) : ofDocument path .null = .ok {} :=
  ofEntries_eq_ok.mpr ⟨by simp, rfl, by decide, by decide, by simp [Percent.InRange], by decide⟩

/-! ## The settings of a file -/

/-- Whether a value gives settings: it is nothing or a mapping, and each key of it is known and has no value
outside of the domain of the key. -/
structure IsAcceptable (d : Document) : Prop where
  shape : d = .null ∨ ∃ entries, d = .mapping entries
  known : ∀ key ∈ d.entries.map (·.1), ∃ p ∈ defaults, key = .text p.1
  inDomain : ∀ p ∈ overlay d.entries, InDomain p.1 p.2

theorem inDomain_overlay_of_isValid {entries : List (Document × Document)} {s : Settings}
    (h : s.toEntries = overlay entries) (hs : s.IsValid) : ∀ p ∈ overlay entries, InDomain p.1 p.2 := by
  rw [← h]
  simp only [toEntries, List.forall_mem_cons]
  exact ⟨⟨_, rfl, hs.iterations⟩, ⟨_, rfl, hs.bins⟩, ⟨_, rfl, hs.percentiles⟩, ⟨_, rfl, hs.maxExactRanges⟩,
    ⟨_, rfl⟩, List.forall_mem_nil _⟩

theorem ofDocument_eq_ofEntries (path : String) (d : Document) :
    ofDocument path d = ofEntries path d.entries ∧ (d = .null ∨ ∃ entries, d = .mapping entries) ∨
      ofDocument path d = .error (.notMapping path) ∧ d.entries = [] ∧
        ¬ (d = .null ∨ ∃ entries, d = .mapping entries) := by
  cases d with
  | null => exact .inl ⟨rfl, .inl rfl⟩
  | mapping entries => exact .inl ⟨rfl, .inr ⟨entries, rfl⟩⟩
  | _ => exact .inr ⟨rfl, rfl, by simp⟩

theorem exists_ofDocument_iff (path : String) (d : Document) :
    (∃ s, ofDocument path d = .ok s) ↔ IsAcceptable d := by
  rcases ofDocument_eq_ofEntries path d with ⟨hentries, hshape⟩ | ⟨herror, -, hshape⟩
  · rw [hentries]
    constructor
    · rintro ⟨s, hs⟩
      obtain ⟨hknown, hoverlay, hvalid⟩ := ofEntries_eq_ok.mp hs
      exact ⟨hshape, fun key hkey => isKnown_iff.mp (hknown key hkey),
        inDomain_overlay_of_isValid hoverlay hvalid⟩
    · intro h
      have hknown : ∀ key ∈ d.entries.map (·.1), isKnown key = true := fun key hkey =>
        isKnown_iff.mpr (h.known key hkey)
      cases hresult : ofEntries path d.entries with
      | ok s => exact ⟨s, rfl⟩
      | error fault =>
        rcases ofEntries_eq_error hresult with herror | ⟨-, p, hp, hout, -⟩
        · rw [(checkKeys_eq_ok _ _).mpr hknown] at herror
          cases herror
        · exact absurd (h.inDomain p hp) hout
  · rw [herror]
    exact iff_of_false nofun fun h => hshape h.shape

/-- The settings of a file exist exactly if the value of the file is nothing, or a mapping of known keys to
values in their domains. They are valid, and have the given value of each key that is there and the default of
every other key. A file that is refused is reported so, if its keys are texts and the values that are outside
of their domains can be displayed; a key that is no text is never reported. -/
theorem ofDocument_overlays (path : String) (d : Document) :
    ((∃ s, ofDocument path d = .ok s) ↔ IsAcceptable d) ∧
      (∀ s, ofDocument path d = .ok s → s.IsValid ∧ ∀ p ∈ defaults,
        (∀ value, Gives d.entries p.1 value → (p.1, value) ∈ s.toEntries) ∧
          (.text p.1 ∉ d.entries.map (·.1) → p ∈ s.toEntries)) ∧
      (∀ fault, ofDocument path d = .error fault → (∀ key ∈ d.entries.map (·.1), ∃ name, key = .text name) →
        (∀ p ∈ overlay d.entries, ¬ InDomain p.1 p.2 → p.2.isDisplayable = true) →
          fault.isReported = true) ∧
      ∀ key ∈ d.entries.map (·.1), (∀ name, key ≠ .text name) →
        ∃ fault, ofDocument path d = .error fault ∧ fault.isReported = false := by
  refine ⟨exists_ofDocument_iff path d, fun s hs => ?_, fun fault hfault htexts hshown => ?_, ?_⟩
  · rcases ofDocument_eq_ofEntries path d with ⟨hentries, -⟩ | ⟨herror, -⟩
    · obtain ⟨-, hoverlay, hvalid⟩ := ofEntries_eq_ok.mp (hentries ▸ hs)
      refine ⟨hvalid, fun p hp => ?_⟩
      have hmem : (p.1, valueOf d.entries p.1) ∈ s.toEntries := hoverlay ▸ List.mem_map_of_mem hp
      refine ⟨fun value hvalue => valueOf_of_gives hvalue ▸ hmem, fun habsent => ?_⟩
      rwa [valueOf_of_not_mem habsent, lookup_defaults hp, Option.getD_some] at hmem
    · rw [herror] at hs
      cases hs
  · have htexts : ∀ key ∈ d.entries.map (·.1), isText key = true := fun key hkey =>
      isText_iff.mpr (htexts key hkey)
    rcases ofDocument_eq_ofEntries path d with ⟨hentries, -⟩ | ⟨herror, -⟩
    · rcases ofEntries_eq_error (hentries ▸ hfault) with hkeys | ⟨-, p, hp, hout, hreported⟩
      · rcases checkKeys_cases path (d.entries.map (·.1)) with ⟨hok, -⟩ | ⟨fault', herror, -, hreported⟩
        · rw [hok] at hkeys
          cases hkeys
        · obtain rfl := Except.error.inj (herror.symm.trans hkeys)
          exact hreported.mpr htexts
      · exact hreported.trans (hshown p hp hout)
    · obtain rfl := Except.error.inj (herror.symm.trans hfault)
      rfl
  · intro key hkey hstrange
    rcases ofDocument_eq_ofEntries path d with ⟨hentries, -⟩ | ⟨-, hnil, -⟩
    · rcases checkKeys_cases path (d.entries.map (·.1)) with ⟨-, hall⟩ | ⟨fault, herror, -, hreported⟩
      · obtain ⟨p, -, rfl⟩ := isKnown_iff.mp (hall key hkey)
        exact absurd rfl (hstrange p.1)
      · refine ⟨fault, ?_, Bool.eq_false_iff.mpr fun h => ?_⟩
        · rw [hentries, ofEntries, herror]
          rfl
        · obtain ⟨name, rfl⟩ := isText_iff.mp (hreported.mp h key hkey)
          exact hstrange name rfl
    · rw [hnil] at hkey
      cases hkey

/-- A file that gives a seed and percentiles: the other settings are the defaults. -/
theorem seedAndPercentiles_overlay :
    let d : Document :=
      .mapping [(.text "seed", .integer 7), (.text "percentiles", .list [.decimal 2.5, .integer 50])]
    ∃ s, ofDocument "settings.yaml" d = .ok s ∧ s.seed = some 7 ∧
      s.percentiles = [.decimal 2.5, .whole 50] ∧ ("bins", .integer 23) ∈ s.toEntries := by
  intro d
  have hok : ofDocument "settings.yaml" d =
      .ok { seed := some 7, percentiles := [.decimal 2.5, .whole 50] } := by
    have hpercent : (0 : Float) ≤ 2.5 ∧ (2.5 : Float) ≤ 100 := by decide +kernel
    refine ofEntries_eq_ok.mpr ⟨by simp [isKnown, defaults], rfl, by decide, by decide, ?_, by decide⟩
    simp [Percent.InRange, hpercent]
  obtain ⟨-, hsettings, -⟩ := ofDocument_overlays "settings.yaml" d
  obtain ⟨-, hdefaults⟩ := hsettings _ hok
  have hbins := (hdefaults ("bins", .integer 23) (by simp [defaults])).2 (by simp [d, Document.entries])
  exact ⟨_, hok, rfl, rfl, hbins⟩

/-- Two files that are refused, and not reported as such: a key is a number, and a value has too many digits
to be displayed. -/
theorem numberAsKey_not_reported :
    (∃ fault, ofDocument "settings.yaml" (.mapping [(.integer 1, .integer 2)]) = .error fault ∧
        fault.isReported = false ∧ fault.message = "sequence item 0: expected str instance, int found") ∧
      ∃ fault, ofDocument "settings.yaml" (.mapping [(.text "bins", .integer (.negSucc (Nat.pow 10 4300)))]) =
        .error fault ∧ fault.isReported = false := by
  refine ⟨⟨_, rfl, rfl, rfl⟩, ?_⟩
  have hescapes : (match ofDocument "settings.yaml"
        (.mapping [(.text "bins", .integer (.negSucc (Nat.pow 10 4300)))]) with
      | .ok _ => true
      | .error fault => fault.isReported) = false := by decide +kernel
  split at hescapes
  next => cases hescapes
  next fault hfault => exact ⟨fault, hfault, hescapes⟩

end Settings

end RangeCalc
