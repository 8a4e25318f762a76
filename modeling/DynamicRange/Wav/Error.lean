import DynamicRange.Files.Tree

/-!
# Errors of WAV files
-/

namespace DynamicRange

/-- What is wrong with the structure of a WAV file. -/
inductive WavFlaw where
  /-- The file does not start with a RIFF tag. -/
  | noRiff
  /-- The RIFF form is not WAVE. -/
  | noWave
  /-- Samples come before their description. -/
  | noFormat
  /-- The description is too short. -/
  | shortFormat
  /-- The description has another length than its encoding asks for. -/
  | formatLength
  /-- There are no channels. -/
  | noChannels
  /-- A sample has more bits than bytes for them. -/
  | wideSample
  /-- The rates of samples and bytes disagree. -/
  | inconsistentRates
  /-- The number of bits is no multiple of eight. -/
  | raggedBits
  /-- The number of bits is zero. -/
  | noBits
  /-- Integer samples of the extended description have 8, 16 or 24 bits. -/
  | integerBits
  /-- Float samples have 32 bits. -/
  | floatBits
  /-- The extension of a float description is not empty. -/
  | floatExtension
  /-- The extension of an extensible description has another length than 22. -/
  | extensionLength
  /-- The data end within a sample of a channel. -/
  | raggedData
  /-- The data end within a sample of all channels. -/
  | raggedChannels
deriving DecidableEq, Repr

/-- The flaw in words. -/
def WavFlaw.text : WavFlaw → String
  | noRiff => "no RIFF tag found"
  | noWave => "no WAVE tag found"
  | noFormat => "missing fmt chunk"
  | shortFormat => "invalid fmt chunk size"
  | formatLength => "unexpected fmt chunk size"
  | noChannels => "file contains zero channels"
  | wideSample => "sample bits exceeds size of sample"
  | inconsistentRates => "inconsistent fmt chunk"
  | raggedBits => "bits per sample is not a multiple of 8"
  | noBits => "bits per sample is 0"
  | integerBits => "bits per sample is not 8 or 16"
  | floatBits => "bits per sample is not 32"
  | floatExtension => "unexpected WAVEFORMATEX size"
  | extensionLength => "unexpected WAVEFORMATEXTENSIBLE size"
  | raggedData => "data chunk length is not a multiple of sample size"
  | raggedChannels => "invalid data chunk length"

/-- Why a WAV file cannot be read. -/
inductive WavError where
  /-- The file cannot be read at all. -/
  | file (cause : FileError)
  /-- The structure is flawed. -/
  | flawed (flaw : WavFlaw)
  /-- The encoding of the samples is not known. -/
  | unsupported
  /-- The bytes end too early. -/
  | truncated
  /-- The samples have more than 32 bits. -/
  | tooWide
deriving DecidableEq, Repr

/-- The reason in words. -/
def WavError.message : WavError → String
  | file cause => cause.message
  | flawed flaw => s!"Ill-formed WAVE file: {flaw.text}"
  | unsupported => "The wave format of the file is not supported."
  | truncated => "Failed to read enough bytes."
  | tooWide => "The sample has more bits than the destination type."

/-- Why audio cannot be read or written. -/
inductive AudioError where
  /-- A WAV file cannot be read. -/
  | wav (cause : WavError)
  /-- There is no encoding for a depth. -/
  | depth (bits : Nat)
  /-- There are more channels than a WAV file can have. -/
  | channels (count : Nat)
  /-- A file cannot be written. -/
  | file (cause : FileError)
  /-- A depth is too large for a full scale, or a byte rate for its field. This ends the program. -/
  | overflow
deriving DecidableEq, Repr

namespace AudioError

/-- The reason in words. -/
def message : AudioError → String
  | wav cause => s!"WAV file error: {cause.message}"
  | depth bits => s!"Unsupported sample format: {bits}-bit output (expected 16, 24 or 32)"
  | channels count => s!"Unsupported sample format: {count} channels"
  | file cause => s!"IO error: {cause.message}"
  | overflow => "arithmetic overflow"

/-- The cause behind the reason, in words. -/
def cause? : AudioError → Option String
  | wav cause => some cause.message
  | file cause => some cause.message
  | depth _ | channels _ | overflow => none

end AudioError

end DynamicRange
