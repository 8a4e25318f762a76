import DynamicRange.Command.Audio
import DynamicRange.Command.Catalogue

/-!
# Runs

A run of the program: a command line and the files it finds, and what it leaves.

## Main definitions

* `Command.run`
-/

namespace DynamicRange.Command

/-- What is printed for help. -/
def helpText : String :=
  "Feed-forward dynamic range compressor\n\n" ++
  "Usage: squish [OPTIONS] <COMMAND>\n\n" ++
  "Commands:\n" ++
  "  compress   Compress a WAV file with its own signal as the detector\n" ++
  "  sidechain  Compress a WAV file driven by a second (sidechain) file\n" ++
  "  info       Show WAV file information\n" ++
  "  params     List compressor parameters and accepted values\n" ++
  "  presets    List or show presets\n"

/-- What is printed for the version. -/
def versionText : String := "squish 0.1.0\n"

/-- Does a job. -/
def perform : Job → Console PUnit
  | .compress input output source blockSize bits => compress input output source blockSize bits
  | .sidechain main side output source blockSize sidechainBlockSize bits =>
    sidechain main side output source blockSize sidechainBlockSize bits
  | .info file levels => info file levels
  | .params name => params name
  | .presets name target => presets name target

/-- Runs a command line. Misuse ends with the code 2, a failure with 1. -/
def run (args : List String) (files : FileTree) : Outcome :=
  match invocation args with
  | .ok job => (perform job).outcome files
  | .error .help => { code := some 0, output := helpText, files }
  | .error .version => { code := some 0, output := versionText, files }
  | .error .misuse => { code := some 2, errors := "error: misuse\n\n" ++ helpText, files }

end DynamicRange.Command
