import Visibility.Options
import Visibility.Proofs.Traversal

namespace Visibility.Options

/-- The numbers are in the ranges of their types, which have 64 bits or 32. -/
structure Fits (opts : Options) : Prop where
  resyncPeriodSecs : opts.resyncPeriodSecs < UInt64.size
  workers : opts.workers < UInt64.size
  fastDelayMs : opts.fastDelayMs < UInt64.size
  slowDelayMs : opts.slowDelayMs < UInt64.size
  maxFastAttempts : opts.maxFastAttempts < UInt32.size
  maxRetries : opts.maxRetries < UInt32.size

theorem fits_default : ({} : Options).Fits := by
  constructor <;> decide

variable {s value : String} {n : Nat} {opts opts' : Options} {o : OptionName}

theorem lt_of_readWord? (h : readWord? s = some n) : n < UInt64.size := by
  obtain ⟨-, hlt⟩ := Option.filter_eq_some_iff.1 h
  exact of_decide_eq_true hlt

theorem lt_of_readCount? (h : readCount? s = some n) : n < UInt32.size := by
  obtain ⟨i, hi, rfl⟩ := Option.map_eq_some_iff.1 h
  obtain ⟨-, hlt⟩ := Option.filter_eq_some_iff.1 hi
  rw [Bool.and_eq_true, decide_eq_true_iff, decide_eq_true_iff] at hlt
  have hsize : UInt32.size = 4294967296 := rfl
  omega

theorem Fits.set? (h : opts.Fits) (hset : opts.set? o value = some opts') : opts'.Fits := by
  cases o with
  | resyncPeriod =>
      obtain ⟨n, hn, rfl⟩ := Option.map_eq_some_iff.1 hset
      exact { h with resyncPeriodSecs := lt_of_readWord? hn }
  | workers =>
      obtain ⟨n, hn, rfl⟩ := Option.map_eq_some_iff.1 hset
      exact { h with workers := lt_of_readWord? hn }
  | fastDelay =>
      obtain ⟨n, hn, rfl⟩ := Option.map_eq_some_iff.1 hset
      exact { h with fastDelayMs := lt_of_readWord? hn }
  | slowDelay =>
      obtain ⟨n, hn, rfl⟩ := Option.map_eq_some_iff.1 hset
      exact { h with slowDelayMs := lt_of_readWord? hn }
  | maxFastAttempts =>
      obtain ⟨n, hn, rfl⟩ := Option.map_eq_some_iff.1 hset
      exact { h with maxFastAttempts := lt_of_readCount? hn }
  | maxRetries =>
      obtain ⟨n, hn, rfl⟩ := Option.map_eq_some_iff.1 hset
      exact { h with maxRetries := lt_of_readCount? hn }
  | logFormat =>
      rw [Options.set?] at hset
      split at hset
      · cases hset
        exact { h with }
      · split at hset
        · cases hset
          exact { h with }
        · cases hset

namespace Reading

variable {r r' : Reading}

theorem fits_assign {value : Option String} (h : r.options.Fits) (ha : r.assign o value = .ok r') :
    r'.options.Fits := by
  cases value with
  | none => cases ha
  | some value =>
      rw [assign] at ha
      split at ha
      · cases ha
      · split at ha
        · rename_i hset
          cases ha
          exact h.set? hset
        · cases ha

theorem fits_settle (h : r.options.Fits) (hs : r.settle = .ok r') : r'.options.Fits := by
  rw [settle] at hs
  split at hs
  · cases hs
    exact h
  · rename_i o value hpending
    exact fits_assign (r := { r with pending := none }) h hs

theorem fits_option {argument : String} {name : List Char} {value : Option String} (h : r.options.Fits)
    (ho : r.option argument name value = .ok r') : r'.options.Fits := by
  rw [option.eq_def] at ho
  split at ho
  · obtain ⟨settled, hsettled, ha⟩ := bind_eq_ok_iff.1 ho
    exact fits_assign (fits_settle h hsettled) ha
  · obtain ⟨settled, hsettled, ha⟩ := bind_eq_ok_iff.1 ho
    have hfits : settled.options.Fits := fits_settle h hsettled
    cases ha
    exact hfits
  · cases ho

theorem fits_argument {a : String} (h : r.options.Fits) (ha : r.argument a = .ok r') : r'.options.Fits := by
  rw [argument] at ha
  split at ha
  · cases ha
  · split at ha
    · cases ha
      exact h
    · exact fits_option h ha
    · cases ha
    · split at ha
      · cases ha
        exact h
      · cases ha

theorem fits_foldlM {arguments : List String} (h : r.options.Fits)
    (hfold : arguments.foldlM argument r = .ok r') : r'.options.Fits := by
  induction arguments generalizing r with
  | nil =>
      cases hfold
      exact h
  | cons a arguments ih =>
      rw [List.foldlM_cons] at hfold
      obtain ⟨next, hnext, hrest⟩ := bind_eq_ok_iff.1 hfold
      exact ih (fits_argument h hnext) hrest

end Reading

theorem fits_of_parse {arguments : List String} (h : parse arguments = .ok opts) : opts.Fits := by
  obtain ⟨r, hr, hrest⟩ := bind_eq_ok_iff.1 h
  obtain ⟨settled, hsettled, hopts⟩ := bind_eq_ok_iff.1 hrest
  cases hopts
  exact Reading.fits_settle (Reading.fits_foldlM fits_default hr) hsettled

end Visibility.Options
