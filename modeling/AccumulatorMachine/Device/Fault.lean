/-! Why a device did not do what it was called for. -/
namespace AccumulatorMachine

inductive DeviceFault
  /-- The line has nothing on it, or there is none. -/
  | noInput
  | notANumber (text : List Char)
  /-- The line is not UTF-8. -/
  | notText
  | queueEmpty
  | recorderFull
  | sinkFull
  /-- A fault that the device describes in its own words. -/
  | other (message : String)
  deriving DecidableEq, Repr

def DeviceFault.message : DeviceFault → String
  | noInput => "no input available"
  | notANumber text => "`" ++ String.ofList text ++ "` is not a number"
  | notText => "stream did not contain valid UTF-8"
  | queueEmpty => "queue empty"
  | recorderFull => "recorder full"
  | sinkFull => "sink full"
  | other message => message

end AccumulatorMachine
